import QirProfile.Proofs.Program.Edits

/-!
# The symbols of a program

Functions and globals share one space of names. `takenNames` lists the names of the live functions
and of the globals; a program's symbols are unique when no name stands there twice. Edits of bodies
leave the list alone. Of the edits that declare something, all but one ask for both kinds of symbols
first: `ensureFunction` looks for a function only, and declares it beside a global of the same name.

A program searches its functions for a name. `Indexed` keeps a table of the names beside it, which
only declarations, copies and erasures of functions write and which is never made anew. Whatever the
edits, the table holds what the search finds (`agrees_serve`).
-/

namespace QirProfile.Program

variable {p q : Program}

/-! ## 1. The list of names -/

theorem takenNames_eq (p : Program) : p.takenNames =
    (p.functions.toList.filter (!·.erased)).map Func.name ++ p.globals.toList.map Global.name := by
  have hfunctions : (List.range p.functions.size).map (p.func ⟨·⟩) = p.functions.toList := by
    apply List.ext_getElem
    · simp
    · intro n h₁ h₂
      simp only [List.length_map, List.length_range] at h₁
      simp [func, h₁]
  rw [takenNames, liveFunctions, ← hfunctions, toList_globals]
  simp only [List.filter_map, List.map_map]
  rfl

theorem takenNames_updateFunc_erased (p : Program) (id : FuncId) :
    (p.updateFunc id ({ · with erased := true })).takenNames.Sublist p.takenNames := by
  have hname : ∀ f, ((p.updateFunc id ({ · with erased := true })).func f).name =
      (p.func f).name := by
    intro f
    rw [func_updateFunc]
    split <;> rfl
  have hlive : ∀ f, (!((p.updateFunc id ({ · with erased := true })).func f).erased) = true →
      (!(p.func f).erased) = true := by
    intro f
    rw [func_updateFunc]
    split
    · exact fun h => by cases h
    · exact fun h => h
  have hsize : (p.updateFunc id ({ · with erased := true })).functions.size = p.functions.size := by
    simp [updateFunc]
  simp only [takenNames, hname]
  refine List.Sublist.append (List.Sublist.map _ ?_) (List.Sublist.refl _)
  unfold liveFunctions
  rw [hsize]
  exact List.monotone_filter_right _ hlive

theorem takenNames_pushFunction {f : Func} (hf : f.erased = false) :
    (p.pushFunction f).1.takenNames.Perm (f.name :: p.takenNames) := by
  simp only [takenNames_eq, pushFunction, Array.toList_push, List.filter_append, List.map_append,
    List.filter_singleton, hf]
  exact (List.perm_append_singleton f.name _).append_right _

/-! ## 2. Edits that declare nothing -/

/-- The same symbols in the same order, and the same functions erased. -/
structure SameSymbols (p q : Program) : Prop where
  size : q.functions.size = p.functions.size
  func : ∀ f, (q.func f).name = (p.func f).name ∧ (q.func f).erased = (p.func f).erased
  globals : q.globals.toList.map Global.name = p.globals.toList.map Global.name

instance : IsPreorder Program SameSymbols where
  refl _ := ⟨rfl, fun _ => ⟨rfl, rfl⟩, rfl⟩
  trans _ _ _ h₁ h₂ :=
    { size := h₂.size.trans h₁.size
      func := fun f => ⟨(h₂.func f).1.trans (h₁.func f).1, (h₂.func f).2.trans (h₁.func f).2⟩
      globals := h₂.globals.trans h₁.globals }

namespace SameSymbols

theorem liveFunctions (h : p.SameSymbols q) : q.liveFunctions = p.liveFunctions := by
  simp only [Program.liveFunctions, h.size, (h.func _).2]

theorem takenNames (h : p.SameSymbols q) : q.takenNames = p.takenNames := by
  have hglobals : q.globalIds.map (fun g => (q.global g).name) =
      p.globalIds.map fun g => (p.global g).name := by
    simpa [toList_globals, Function.comp_def] using h.globals
  simp only [Program.takenNames, h.liveFunctions, (h.func _).1, hglobals]

theorem findFunction? (h : p.SameSymbols q) : q.findFunction? = p.findFunction? := by
  funext name
  simp only [Program.findFunction?, h.liveFunctions, (h.func _).1]

end SameSymbols

theorem SameTop.sameSymbols (h : p.SameTop q) : p.SameSymbols q := by
  refine ⟨by rw [h.1], fun f => ?_, by rw [h.2]⟩
  simp only [Program.func, h.1, and_self]

theorem sameSymbols_updateFunc {g : Func → Func}
    (hg : ∀ f, (g f).name = f.name ∧ (g f).erased = f.erased) (p : Program) (id : FuncId) :
    p.SameSymbols (p.updateFunc id g) := by
  refine ⟨by simp [updateFunc], fun f => ?_, rfl⟩
  rw [func_updateFunc]
  split
  · exact hg _
  · exact ⟨rfl, rfl⟩

theorem sameSymbols_updateInstr (p : Program) (id : InstrId) (g : Instr → Instr) :
    p.SameSymbols (p.updateInstr id g) :=
  SameTop.sameSymbols ⟨rfl, rfl⟩

theorem sameSymbols_updateBlock (p : Program) (id : BlockId) (g : Block → Block) :
    p.SameSymbols (p.updateBlock id g) :=
  SameTop.sameSymbols ⟨rfl, rfl⟩

theorem sameSymbols_replaceUses (p : Program) (old new : Value) :
    p.SameSymbols (p.replaceUses old new) := by
  have hname : Global.name ∘ (fun g : Global => if g.uses old then
      { g with initializer := g.initializer.map (Value.substitute old new) } else g) =
      Global.name := by
    funext g
    simp only [Function.comp_apply]
    split <;> rfl
  refine ⟨rfl, fun _ => ⟨rfl, rfl⟩, ?_⟩
  simp only [replaceUses, Array.toList_map, List.map_map, hname]

theorem sameSymbols_buryInstrs (p : Program) (ids : List InstrId) :
    p.SameSymbols (p.buryInstrs ids) := by
  induction ids generalizing p with
  | nil => exact refl_of SameSymbols p
  | cons i ids ih => exact trans_of SameSymbols (sameSymbols_updateInstr p i _) (ih _)

theorem sameSymbols_dropBlock (p : Program) (b : BlockId) : p.SameSymbols (p.dropBlock b) := by
  have hbury := sameSymbols_buryInstrs p (p.block b).instrs
  unfold dropBlock
  refine trans_of SameSymbols ?_ (sameSymbols_updateBlock _ b _)
  split
  · rename_i f _
    exact trans_of SameSymbols hbury
      (sameSymbols_updateFunc (g := fun fn => { fn with blocks := fn.blocks.filter (· != b) })
        (fun _ => ⟨rfl, rfl⟩) _ f)
  · exact hbury

theorem sameSymbols_dropBlocks (p : Program) (bs : List BlockId) :
    p.SameSymbols (p.dropBlocks bs) := by
  induction bs generalizing p with
  | nil => exact refl_of SameSymbols p
  | cons b bs ih => exact trans_of SameSymbols (sameSymbols_dropBlock p b) (ih _)

/-- What an edit has to do with symbols. -/
inductive Change.Declares : Change → Prop where
  | addFunction (name sig names) : Declares (.addFunction name sig names)
  | ensureFunction (name sig) : Declares (.ensureFunction name sig)
  | specialise (source constants) : Declares (.specialise source constants)
  | eraseFunction (f) : Declares (.eraseFunction f)

theorem sameSymbols_eraseBlock {b : BlockId} (h : p.eraseBlock b = .ok q) : p.SameSymbols q := by
  obtain ⟨-, rfl⟩ := eraseBlock_ok.mp h
  exact sameSymbols_dropBlock p b

theorem sameSymbols_replaceInstr {old new : InstrId} (h : p.replaceInstr old new = .ok q) :
    p.SameSymbols q := by
  obtain ⟨r, hinsert, herase⟩ := replaceInstr_ok.mp h
  have hname : p.SameTop (r.takeName old new) :=
    trans_of SameTop (sameTop_insertBeside hinsert) ⟨rfl, rfl⟩
  exact trans_of SameSymbols hname.sameSymbols
    (trans_of SameSymbols (sameSymbols_replaceUses _ _ _) (sameTop_eraseInstr herase).sameSymbols)

theorem sameSymbols_serve {c : Change} (hc : ¬c.Declares) : p.SameSymbols (p.serve c) := by
  cases c with
  | addFunction name sig names => exact absurd (.addFunction name sig names) hc
  | ensureFunction name sig => exact absurd (.ensureFunction name sig) hc
  | specialise source constants => exact absurd (.specialise source constants) hc
  | eraseFunction f => exact absurd (.eraseFunction f) hc
  | appendBlock f name =>
    have hupdate := sameSymbols_updateFunc
      (g := fun fn => { fn with blocks := fn.blocks ++ [⟨p.blocks.size⟩] }) (fun _ => ⟨rfl, rfl⟩) p f
    exact ⟨hupdate.size, hupdate.func, rfl⟩
  | createInstr kind ty operands => exact SameTop.sameSymbols ⟨rfl, rfl⟩
  | appendInstr b id =>
    exact always_attempt (R := SameSymbols) (fun _ _ h => (sameTop_appendInstr h).sameSymbols) p
  | insertBefore anchor id =>
    exact always_attempt (R := SameSymbols) (fun _ _ h => (sameTop_insertBeside h).sameSymbols) p
  | insertAfter anchor id =>
    exact always_attempt (R := SameSymbols) (fun _ _ h => (sameTop_insertBeside h).sameSymbols) p
  | setOperand id index v =>
    exact always_attempt (R := SameSymbols) (fun _ _ h => (sameTop_setOperand h).sameSymbols) p
  | setOperands id operands =>
    exact always_attempt (R := SameSymbols) (fun _ _ h => (sameTop_setOperands h).sameSymbols) p
  | setKind id kind =>
    exact always_attempt (R := SameSymbols) (fun _ _ h => (sameTop_setKind h).sameSymbols) p
  | replaceUses old new => exact sameSymbols_replaceUses p old new
  | replaceInstr old new =>
    exact always_attempt (R := SameSymbols) (fun _ _ h => sameSymbols_replaceInstr h) p
  | eraseInstr id =>
    exact always_attempt (R := SameSymbols) (fun _ _ h => (sameTop_eraseInstr h).sameSymbols) p
  | eraseBlock b =>
    exact always_attempt (R := SameSymbols) (fun _ _ h => sameSymbols_eraseBlock h) p
  | build place draft =>
    exact ((sequential_always (R := SameTop)).discard (sameTop_insert place draft) p).sameSymbols

/-! ## 3. The table of names -/

/-- A program with the table through which its functions are found. -/
structure Indexed where
  program : Program
  /-- The entry of a name. -/
  table : String → Option FuncId

namespace Indexed

/-- A program without content, and a table without entries. -/
def empty (name : String) : Indexed := ⟨Program.empty name, fun _ => none⟩

/-- Whether the table or a global has this name. -/
def isTaken (s : Indexed) (name : String) : Bool :=
  (s.table name).isSome || (s.program.findGlobal? name).isSome

/-- Adds a function at the end, and its name to the table. -/
def declare (s : Indexed) (f : Func) : Indexed :=
  ⟨(s.program.pushFunction f).1, Function.update s.table f.name (some ⟨s.program.functions.size⟩)⟩

/-- The program and the table behind a change. The table is asked before a function is declared, and
    written where one is declared or copied; an erased function takes its own entry with it, but not
    one that names another function. A copy gets a name that the program has not, which by
    `Agrees.isTaken_eq` is one that the table has not. -/
def serve (s : Indexed) : Change → Indexed
  | .addFunction name sig names =>
    if s.isTaken name then s else s.declare (Func.declare name sig names)
  | .ensureFunction name sig =>
    match s.table name with
    | some _ => s
    | none => s.declare (Func.declare name sig [])
  | .specialise source constants =>
    match s.program.specialise source constants with
    | .ok (q, copy) => ⟨q, Function.update s.table (q.func copy).name (some copy)⟩
    | .error _ => s
  | .eraseFunction f =>
    match s.program.eraseFunction f with
    | .ok q =>
      let name := (s.program.func f).name
      ⟨q, if s.table name = some f then Function.update s.table name none else s.table⟩
    | .error _ => s
  | c => ⟨s.program.serve c, s.table⟩

/-- The table holds what a search of the functions finds. -/
def Agrees (s : Indexed) : Prop := s.table = s.program.findFunction?

/-- What comes from `s` by changes in a row. -/
inductive Edited (s : Indexed) : Indexed → Prop where
  | start : Edited s s
  | change {t : Indexed} {c : Change} (h : Edited s t) (hc : c.InRange t.program) :
      Edited s (t.serve c)

end Indexed

theorem serve_addFunction (p : Program) (name : String) (sig : Signature)
    (names : List (Option String)) : p.serve (.addFunction name sig names) =
      if p.isTaken name then p else (p.pushFunction (Func.declare name sig names)).1 := by
  refine (behind_tryMake (·.addFunction name sig names) p).trans ?_
  cases h : p.isTaken name <;> simp [addFunction, h]

theorem serve_ensureFunction (p : Program) (name : String) (sig : Signature) :
    p.serve (.ensureFunction name sig) =
      match p.findFunction? name with
      | some _ => p
      | none => (p.pushFunction (Func.declare name sig [])).1 := by
  change (p.ensureFunction name sig).1 = _
  cases h : p.findFunction? name <;> simp [ensureFunction, h]

theorem findFunction?_added {f : Func} (hp : p.Sound) (hq : q.Sound) (hlive : f.erased = false)
    (hfunc : ∀ g, q.func g = if g.index = p.functions.size then f else p.func g) :
    q.findFunction? = Function.update p.findFunction? f.name (some ⟨p.functions.size⟩) := by
  have hnew : q.func ⟨p.functions.size⟩ = f := by rw [hfunc, if_pos rfl]
  funext name
  by_cases hname : name = f.name
  · subst hname
    rw [Function.update_self]
    exact (hq.index _ _).mpr ⟨hnew ▸ hlive, congrArg Func.name hnew⟩
  · rw [Function.update_of_ne hname]
    ext g
    rw [hq.index, hp.index, hfunc]
    split
    · rename_i hg
      rw [func_of_le (Nat.le_of_eq hg.symm)]
      exact iff_of_false (fun h => hname h.2.symm) (fun h => by cases h.1)
    · exact Iff.rfl

theorem findFunction?_erased {f : FuncId} (hp : p.Sound) (hq : q.Sound)
    (hf : (p.func f).erased = false)
    (hfunc : ∀ g, (q.func g).name = (p.func g).name ∧
      ((q.func g).erased = false ↔ g ≠ f ∧ (p.func g).erased = false)) :
    q.findFunction? = Function.update p.findFunction? (p.func f).name none := by
  funext name
  by_cases hname : name = (p.func f).name
  · subst hname
    rw [Function.update_self, Option.eq_none_iff_forall_not_mem]
    intro g hg
    obtain ⟨hlive, hgname⟩ := (hq.index _ _).mp hg
    obtain ⟨hne, hglive⟩ := (hfunc g).2.mp hlive
    exact hne (hp.names hglive hf ((hfunc g).1.symm.trans hgname))
  · rw [Function.update_of_ne hname]
    ext g
    rw [hq.index, hp.index, (hfunc g).1, (hfunc g).2]
    constructor
    · rintro ⟨⟨-, hlive⟩, hgname⟩
      exact ⟨hlive, hgname⟩
    · rintro ⟨hlive, hgname⟩
      exact ⟨⟨fun heq => hname (heq ▸ hgname.symm), hlive⟩, hgname⟩

theorem findFunction?_dropFunction (hp : p.Sound) {f : FuncId} (hf : (p.func f).erased = false) :
    (p.dropFunction f).findFunction? = Function.update p.findFunction? (p.func f).name none := by
  have hblocks := sameSymbols_dropBlocks p (p.func f).blocks
  have hlt : f.index < (p.dropBlocks (p.func f).blocks).functions.size := by
    rw [hblocks.size]
    exact func_lt_of_live hf
  refine findFunction?_erased hp (evolves_eraseFunction ((eraseFunction_ok hp).mpr ⟨hf, rfl⟩) hp).1
    hf fun g => ?_
  obtain ⟨hname, herased⟩ := hblocks.func g
  unfold dropFunction
  rw [func_updateFunc]
  by_cases hg : f = g
  · subst hg
    rw [if_pos ⟨rfl, hlt⟩]
    simp [hname]
  · rw [if_neg fun h => hg h.1, herased]
    exact ⟨hname, (and_iff_right (Ne.symm hg)).symm⟩

namespace Indexed

variable {s t : Indexed}

theorem Agrees.isTaken_eq (hs : s.Agrees) (name : String) :
    s.isTaken name = s.program.isTaken name := by
  rw [Indexed.isTaken, hs, Program.isTaken]

theorem Agrees.table_eq (hs : s.Agrees) (name : String) :
    s.table name = s.program.findFunction? name :=
  congrFun hs name

theorem Agrees.declare (hs : s.Agrees) (hp : s.program.Sound) {f : Func} (hlive : f.erased = false)
    (hdeclare : s.program.Evolves (s.program.pushFunction f).1) : (s.declare f).Agrees := by
  have hfind := findFunction?_added hp (hdeclare hp).1 hlive (func_push s.program f)
  exact (congrArg (Function.update · _ _) hs).trans hfind.symm

theorem Agrees.specialise (hs : s.Agrees) (hp : s.program.Sound) (source : FuncId)
    (constants : List (Nat × Value)) :
    (s.serve (.specialise source constants)).program =
        s.program.serve (.specialise source constants) ∧
      (s.serve (.specialise source constants)).Agrees := by
  have hserve : s.program.serve (.specialise source constants) = _ :=
    behind_tryMake (·.specialise source constants) s.program
  rw [hserve]
  simp only [serve]
  cases hcopy : s.program.specialise source constants with
  | error e => exact ⟨rfl, hs⟩
  | ok x =>
    obtain ⟨q, copy⟩ := x
    refine ⟨rfl, ?_⟩
    have hq := (evolves_specialise hcopy hp).1
    obtain ⟨hlive, -, rfl, rfl⟩ := specialise_ok.mp hcopy
    have hfunc := func_withCopy s.program source constants
    have hfind := findFunction?_added (f := s.program.copyFunc source constants) hp hq hlive hfunc
    simp only [hfunc, if_true]
    exact (congrArg (Function.update · _ _) hs).trans hfind.symm

theorem Agrees.eraseFunction (hs : s.Agrees) (hp : s.program.Sound) (f : FuncId) :
    (s.serve (.eraseFunction f)).program = s.program.serve (.eraseFunction f) ∧
      (s.serve (.eraseFunction f)).Agrees := by
  have hserve : s.program.serve (.eraseFunction f) = _ :=
    behind_attempt (·.eraseFunction f) s.program
  rw [hserve]
  simp only [serve]
  cases herase : s.program.eraseFunction f with
  | error e => exact ⟨rfl, hs⟩
  | ok q =>
    refine ⟨rfl, ?_⟩
    obtain ⟨hf, rfl⟩ := (eraseFunction_ok hp).mp herase
    -- The entry is always the function's own, since no two live functions share a name.
    have hentry : s.table (s.program.func f).name = some f :=
      (hs.table_eq _).trans ((hp.index _ _).mpr ⟨hf, rfl⟩)
    simp only [if_pos hentry]
    exact (congrArg (Function.update · _ _) hs).trans (findFunction?_dropFunction hp hf).symm

/-- The table decides as a search would, so the program is edited as it is without a table. -/
theorem agrees_serve (hs : s.Agrees) (hp : s.program.Sound) (c : Change) :
    (s.serve c).program = s.program.serve c ∧ (s.serve c).Agrees := by
  by_cases hc : c.Declares
  · cases hc with
    | addFunction name sig names =>
      have hserve := serve_addFunction s.program name sig names
      simp only [serve, hs.isTaken_eq]
      split
      · rename_i htaken
        exact ⟨(hserve.trans (if_pos htaken)).symm, hs⟩
      · rename_i hfree
        have hprogram := hserve.trans (if_neg hfree)
        exact ⟨hprogram.symm, hs.declare hp rfl
          (hprogram ▸ evolves_serve (c := .addFunction name sig names) trivial)⟩
    | ensureFunction name sig =>
      have hserve := serve_ensureFunction s.program name sig
      simp only [serve, hs.table_eq]
      cases hfind : s.program.findFunction? name with
      | some f => exact ⟨(hserve.trans (by rw [hfind])).symm, hs⟩
      | none =>
        have hprogram : _ = (s.program.pushFunction (Func.declare name sig [])).1 :=
          hserve.trans (by rw [hfind])
        exact ⟨hprogram.symm, hs.declare hp rfl
          (hprogram ▸ evolves_serve (c := .ensureFunction name sig) trivial)⟩
    | specialise source constants => exact hs.specialise hp source constants
    | eraseFunction f => exact hs.eraseFunction hp f
  · have hserve : s.serve c = ⟨s.program.serve c, s.table⟩ := by
      cases c with
      | addFunction name sig names => exact absurd (.addFunction name sig names) hc
      | ensureFunction name sig => exact absurd (.ensureFunction name sig) hc
      | specialise source constants => exact absurd (.specialise source constants) hc
      | eraseFunction f => exact absurd (.eraseFunction f) hc
      | _ => rfl
    rw [hserve]
    exact ⟨rfl, hs.trans (sameSymbols_serve hc).findFunction?.symm⟩

theorem sound_serve (hs : s.Agrees) (hp : s.program.Sound) {c : Change} (hc : c.InRange s.program) :
    (s.serve c).Agrees ∧ (s.serve c).program.Sound ∧ s.program.Buries (s.serve c).program := by
  obtain ⟨hprogram, hagrees⟩ := agrees_serve hs hp c
  rw [hprogram]
  exact ⟨hagrees, evolves_serve hc hp⟩

theorem Edited.sound (h : s.Edited t) (hs : s.Agrees) (hp : s.program.Sound) :
    t.Agrees ∧ t.program.Sound ∧ s.program.Buries t.program := by
  induction h with
  | start => exact ⟨hs, hp, .refl _⟩
  | change _ hc ih =>
    obtain ⟨ht, hsound, hburies⟩ := ih
    obtain ⟨hu, husound, huburies⟩ := sound_serve ht hsound hc
    exact ⟨hu, husound, hburies.trans huburies⟩

theorem agrees_empty (name : String) : (empty name).Agrees := rfl

end Indexed

/-- Whatever edits have been made, refused ones among them: the program is sound, the table of names
    holds what a search finds, compound edits are made as a whole or not at all, and what is erased
    stays erased. -/
theorem sound_edited {name : String} {s : Indexed} (h : (Indexed.empty name).Edited s) :
    s.program.Sound ∧
      (∀ name f, s.table name = some f ↔
        (s.program.func f).erased = false ∧ (s.program.func f).name = name) ∧
      s.program.Whole ∧ ∀ t, s.Edited t → s.program.Buries t.program := by
  obtain ⟨hs, hp, -⟩ := h.sound (Indexed.agrees_empty name) (sound_empty name)
  refine ⟨hp, fun name f => ?_, hp.whole, fun t ht => (ht.sound hs hp).2.2⟩
  rw [hs.table_eq]
  exact hp.index name f

/-- A function with one block, its copy, a second return that finds no place, the function erased,
    and another function under its name. -/
def copiedOnce : Indexed :=
  (((((((Indexed.empty "m").serve (.addFunction "f" ⟨.void, [], false⟩ [])).serve
    (.appendBlock ⟨0⟩ none)).serve
    (.build (.endOf ⟨0⟩) ⟨.ret, .void, [], none⟩)).serve
    (.specialise ⟨0⟩ [])).serve
    (.eraseFunction ⟨0⟩)).serve
    (.build (.endOf ⟨0⟩) ⟨.ret, .void, [], none⟩)).serve
    (.ensureFunction "f" ⟨.void, [], false⟩)

theorem sound_edited_copiedOnce :
    (Indexed.empty "m").Edited copiedOnce ∧ (copiedOnce.program.func ⟨0⟩).erased = true ∧
      (copiedOnce.program.func ⟨1⟩).blocks = [⟨1⟩] ∧
      copiedOnce.table "f.1" = some ⟨1⟩ ∧ copiedOnce.table "f" = some ⟨2⟩ ∧
      copiedOnce.program.Sound ∧
      (∀ name f, copiedOnce.table name = some f ↔
        (copiedOnce.program.func f).erased = false ∧ (copiedOnce.program.func f).name = name) ∧
      copiedOnce.program.Whole ∧
      ∀ t, copiedOnce.Edited t → copiedOnce.program.Buries t.program := by
  have h : (Indexed.empty "m").Edited copiedOnce :=
    .change (.change (.change (.change (.change (.change (.change .start trivial)
      (Nat.zero_lt_one)) trivial) trivial) trivial) trivial) trivial
  exact ⟨h, by decide, by decide, by decide, by decide, sound_edited h⟩

/-! ## 4. Edits that declare something -/

theorem nodup_pushFunction (h : p.takenNames.Nodup) {f : Func} (hf : f.erased = false) :
    (p.pushFunction f).1.takenNames.Nodup ↔ f.name ∉ p.takenNames := by
  rw [(takenNames_pushFunction hf).nodup_iff, List.nodup_cons]
  exact and_iff_left h

theorem nodup_addFunction (h : p.takenNames.Nodup) {name : String} {sig : Signature}
    {names : List (Option String)} {f : FuncId} (hadd : p.addFunction name sig names = .ok (q, f)) :
    q.takenNames.Nodup := by
  unfold addFunction at hadd
  split at hadd
  · cases hadd
  · rename_i hfree
    cases hadd
    exact (nodup_pushFunction (f := .declare name sig names) h rfl).mpr (hfree ∘ isTaken_iff.mpr)

theorem nodup_specialise (h : p.takenNames.Nodup) {source copy : FuncId}
    {constants : List (Nat × Value)} (hcopy : p.specialise source constants = .ok (q, copy)) :
    q.takenNames.Nodup := by
  obtain ⟨hlive, -, rfl, -⟩ := specialise_ok.mp hcopy
  exact (nodup_pushFunction (f := p.copyFunc source constants) h hlive).mpr
    (freshFunctionName_not_mem p _)

theorem sublist_eraseFunction {f : FuncId} (h : p.eraseFunction f = .ok q) :
    q.takenNames.Sublist p.takenNames := by
  have hblocks : ∀ (bs : List BlockId) (p r : Program), bs.foldlM eraseBlock p = .ok r →
      p.SameSymbols r := by
    intro bs
    induction bs with
    | nil =>
      intro p r h
      cases h
      exact refl_of SameSymbols p
    | cons b bs ih =>
      intro p r h
      rw [List.foldlM_cons] at h
      obtain ⟨s, hs, hrest⟩ := except_bind_ok.mp h
      exact trans_of SameSymbols (sameSymbols_eraseBlock hs) (ih s r hrest)
  unfold eraseFunction at h
  dsimp only at h
  split at h
  · cases h
  · obtain ⟨r, hr, h⟩ := except_bind_ok.mp h
    cases h
    rw [← (hblocks _ _ _ hr).takenNames]
    exact takenNames_updateFunc_erased r f

/-- The function that is to be there would share its name with a global. -/
def Shadows (p : Program) (name : String) : Prop :=
  p.findFunction? name = none ∧ (p.findGlobal? name).isSome = true

theorem nodup_ensureFunction (h : p.takenNames.Nodup) (name : String) (sig : Signature) :
    (p.ensureFunction name sig).1.takenNames.Nodup ↔ ¬p.Shadows name := by
  unfold ensureFunction Shadows
  cases hfind : p.findFunction? name with
  | some f => simp [h]
  | none =>
    have hmem : name ∈ p.takenNames ↔ (p.findGlobal? name).isSome = true := by
      rw [← isTaken_iff, isTaken, hfind]
      simp
    rw [nodup_pushFunction (f := .declare name sig []) h rfl]
    change name ∉ p.takenNames ↔ _
    rw [hmem]
    simp

/-! ## 5. Edits in a row -/

/-- An edit of a program with its globals. -/
inductive Act where
  | edit (c : Change)
  | addGlobal (g : Global)
  | setInitializer (id : GlobalId) (init : Option Value)

/-- What an edit does. -/
def Act.perform : Act → Edit Unit
  | edit c => c.perform
  | addGlobal g => discard (Edit.tryMake (·.addGlobal g))
  | setInitializer id init => modify (·.setInitializer id init)

/-- The program behind an edit, whether it was carried out or refused. -/
def act (p : Program) (a : Act) : Program := behind a.perform p

/-- An edit that declares a function under the name of a global. -/
def Act.Clashes (p : Program) : Act → Prop
  | edit (.ensureFunction name _) => p.Shadows name
  | _ => False

/-- Programs that come from `p` by edits in a row, none of which declares a function under the name
    of a global. -/
inductive Acted (p : Program) : Program → Prop where
  | start : Acted p p
  | act {q : Program} {a : Act} (h : Acted p q) (ha : ¬a.Clashes q) : Acted p (q.act a)

theorem nodup_addGlobal (h : p.takenNames.Nodup) {g : Global} {id : GlobalId}
    (hadd : p.addGlobal g = .ok (q, id)) : q.takenNames.Nodup := by
  unfold addGlobal at hadd
  split at hadd
  · cases hadd
  · rename_i hfree
    cases hadd
    have hnames : ({ p with globals := p.globals.push g } : Program).takenNames =
        p.takenNames ++ [g.name] := by
      simp [takenNames_eq]
    rw [hnames, List.nodup_append]
    refine ⟨h, List.nodup_singleton _, ?_⟩
    rintro name hname other hother rfl
    rw [List.mem_singleton.mp hother] at hname
    exact hfree (isTaken_iff.mpr hname)

theorem sameSymbols_setInitializer (p : Program) (id : GlobalId) (init : Option Value) :
    p.SameSymbols (p.setInitializer id init) := by
  have hnames : (p.globals.modify id.index ({ · with initializer := init })).toList.map Global.name =
      p.globals.toList.map Global.name := by
    apply List.ext_getElem
    · simp
    · intro n h₁ h₂
      simp only [List.getElem_map, Array.getElem_toList, Array.getElem_modify]
      split <;> rfl
  exact ⟨rfl, fun _ => ⟨rfl, rfl⟩, hnames⟩

/-- Unique symbols stay unique. -/
def KeepsUnique (p q : Program) : Prop := p.takenNames.Nodup → q.takenNames.Nodup

instance : IsPreorder Program KeepsUnique where
  refl _ h := h
  trans _ _ _ h₁ h₂ h := h₂ (h₁ h)

theorem keepsUnique_tryMake {α : Type} {f : Program → Except ProgramError (Program × α)}
    (hf : ∀ p q a, f p = .ok (q, a) → p.KeepsUnique q) :
    p.KeepsUnique (behind (discard (Edit.tryMake f)) p) :=
  (sequential_always (R := KeepsUnique)).discard (always_tryMake hf) p

theorem nodup_act (h : p.takenNames.Nodup) (a : Act) :
    (p.act a).takenNames.Nodup ↔ ¬a.Clashes p := by
  cases a with
  | addGlobal g =>
    exact iff_of_true (keepsUnique_tryMake (fun _ _ _ hadd h => nodup_addGlobal h hadd) h) not_false
  | setInitializer id init =>
    refine iff_of_true ?_ not_false
    have hsame : (p.act (.setInitializer id init)).takenNames = p.takenNames :=
      (sameSymbols_setInitializer p id init).takenNames
    rwa [hsame]
  | edit c =>
    by_cases hc : c.Declares
    · cases hc with
      | addFunction name sig names =>
        exact iff_of_true (keepsUnique_tryMake (fun _ _ _ hadd h => nodup_addFunction h hadd) h)
          not_false
      | ensureFunction name sig => exact nodup_ensureFunction h name sig
      | specialise source constants =>
        exact iff_of_true (keepsUnique_tryMake (fun _ _ _ hcopy h => nodup_specialise h hcopy) h)
          not_false
      | eraseFunction f =>
        refine iff_of_true ?_ not_false
        exact always_attempt (R := KeepsUnique) (f := (·.eraseFunction f))
          (fun _ _ herase h => h.sublist (sublist_eraseFunction herase)) p h
    · refine iff_of_true ?_ ?_
      · have hsame : (p.act (.edit c)).takenNames = p.takenNames :=
          (sameSymbols_serve hc).takenNames
        rwa [hsame]
      · cases c with
        | ensureFunction name sig => exact absurd (.ensureFunction name sig) hc
        | _ => exact not_false

/-- Symbols are unique, and of all acts only one that clashes ends that: `ensureFunction` under the
    name of a global. -/
theorem symbols_unique {name : String} (h : Acted (empty name) p) :
    p.takenNames.Nodup ∧ ∀ a : Act, (p.act a).takenNames.Nodup ↔ ¬a.Clashes p := by
  have hp : p.takenNames.Nodup := by
    induction h with
    | start => exact List.nodup_nil
    | act _ ha ih => exact (nodup_act ih _).mpr ha
  exact ⟨hp, nodup_act hp⟩

/-- A function, a global, a copy of the function, the function erased, and its name given to a
    global. -/
def renamed : Program :=
  (((((empty "m").act (.edit (.addFunction "f" ⟨.void, [], false⟩ []))).act
    (.addGlobal { name := "x", ty := .int 8 })).act
    (.edit (.specialise ⟨0⟩ []))).act
    (.edit (.eraseFunction ⟨0⟩))).act
    (.addGlobal { name := "f", ty := .int 8 })

theorem symbols_unique_renamed : Acted (empty "m") renamed ∧ renamed.takenNames = ["f.1", "x", "f"] ∧
    renamed.takenNames.Nodup ∧ ∀ a : Act, (renamed.act a).takenNames.Nodup ↔ ¬a.Clashes renamed := by
  have h : Acted (empty "m") renamed :=
    .act (.act (.act (.act (.act .start not_false) not_false) not_false) not_false) not_false
  exact ⟨h, by decide, symbols_unique h⟩

/-- A function is declared under the name of a global. -/
theorem global_shadowed :
    ¬(((empty "m").act (.addGlobal { name := "x", ty := .int 8 })).act
      (.edit (.ensureFunction "x" ⟨.void, [], false⟩))).takenNames.Nodup := by decide

end QirProfile.Program
