import QirProfile.Proofs.Assembly.Layout
import QirProfile.Proofs.Assembly.Slots

/-!
# Programs under other local names

`Program.relabel` gives every parameter, block and instruction another name and changes nothing else.
A program that is printed and read again comes back under the names of its slots: `relabelled` is the
program under those names.
-/

namespace QirProfile

/-! ## 1. Other names -/

namespace Program

/-- The program with these names for its local values. -/
def relabel (p : Program) (name : Value → Option String) : Program :=
  { p with
    functions := p.functions.mapIdx fun k f =>
      { f with params := f.params.mapIdx fun i param => { param with name := name (.arg ⟨k⟩ i) } }
    blocks := p.blocks.mapIdx fun k b => { b with name := name (.block ⟨k⟩) }
    instrs := p.instrs.mapIdx fun k i => { i with name := name (.instr ⟨k⟩) } }

section

variable (p : Program) (name : Value → Option String)

theorem func_relabel (f : FuncId) : (p.relabel name).func f =
    { p.func f with
      params := (p.func f).params.mapIdx fun i param => { param with name := name (.arg f i) } } := by
  obtain ⟨k⟩ := f
  by_cases hk : k < p.functions.size
  · simp [func, relabel, hk]
  · simp [func, relabel, hk, Func.tombstone]

theorem block_relabel {b : BlockId} (h : b.index < p.blocks.size) : (p.relabel name).block b =
    { p.block b with name := name (.block b) } := by
  obtain ⟨k⟩ := b
  simp_all [block, relabel]

theorem instr_relabel {i : InstrId} (h : i.index < p.instrs.size) : (p.relabel name).instr i =
    { p.instr i with name := name (.instr i) } := by
  obtain ⟨k⟩ := i
  simp_all [instr, relabel]

@[simp] theorem global_relabel (g : GlobalId) : (p.relabel name).global g = p.global g := rfl

theorem block_relabel_name (b : BlockId) : ∃ n, (p.relabel name).block b =
    { p.block b with name := n } := by
  by_cases h : b.index < p.blocks.size
  · exact ⟨_, block_relabel p name h⟩
  · exact ⟨(p.block b).name, by simp [block, relabel, h]⟩

theorem instr_relabel_name (i : InstrId) : ∃ n, (p.relabel name).instr i =
    { p.instr i with name := n } := by
  by_cases h : i.index < p.instrs.size
  · exact ⟨_, instr_relabel p name h⟩
  · exact ⟨(p.instr i).name, by simp [instr, relabel, h]⟩

@[simp] theorem func_relabel_blocks (f : FuncId) :
    ((p.relabel name).func f).blocks = (p.func f).blocks := by
  rw [func_relabel]

@[simp] theorem func_relabel_signature (f : FuncId) :
    ((p.relabel name).func f).signature = (p.func f).signature := by
  rw [func_relabel]
  simp only [Func.signature, List.mapIdx_eq_zipIdx_map, List.map_map, Signature.mk.injEq, true_and,
    and_true]
  exact List.ext_getElem (by simp) (by simp)

@[simp] theorem block_relabel_instrs (b : BlockId) :
    ((p.relabel name).block b).instrs = (p.block b).instrs := by
  obtain ⟨n, h⟩ := block_relabel_name p name b
  rw [h]

@[simp] theorem block_relabel_parent (b : BlockId) :
    ((p.relabel name).block b).parent = (p.block b).parent := by
  obtain ⟨n, h⟩ := block_relabel_name p name b
  rw [h]

@[simp] theorem instr_relabel_ty (i : InstrId) :
    ((p.relabel name).instr i).ty = (p.instr i).ty := by
  obtain ⟨n, h⟩ := instr_relabel_name p name i
  rw [h]

@[simp] theorem instr_relabel_parent (i : InstrId) :
    ((p.relabel name).instr i).parent = (p.instr i).parent := by
  obtain ⟨n, h⟩ := instr_relabel_name p name i
  rw [h]

@[simp] theorem valueTy_relabel (v : Value) : (p.relabel name).valueTy v = p.valueTy v := by
  cases v with
  | arg f i => simp [valueTy, func_relabel, Option.map_map, Function.comp_def]
  | _ => simp [valueTy]

@[simp] theorem liveFunctions_relabel : (p.relabel name).liveFunctions = p.liveFunctions := by
  have hsize : (p.relabel name).functions.size = p.functions.size := by simp [relabel]
  simp [liveFunctions, hsize, func_relabel]

end

end Program

namespace Assembly

open Text

/-! ## 2. Local values are defined once -/

section

variable {p : Program} {f : FuncId}

theorem nodup_blockIds (start count : Nat) : (blockIds start count).Nodup :=
  List.Nodup.map (fun _ _ h => congrArg BlockId.index h) List.nodup_range'

theorem nodup_instrIds (start count : Nat) : (instrIds start count).Nodup :=
  List.Nodup.map (fun _ _ h => congrArg InstrId.index h) List.nodup_range'

theorem Laid.nodup_blocks (h : Laid p) (f : FuncId) : (p.func f).blocks.Nodup := by
  by_cases hf : f.index < p.functions.size
  · have hall := nodup_blockIds 0 p.blocks.size
    rw [← h.blocks] at hall
    exact (List.nodup_flatMap.mp hall).1 f.index (List.mem_range.mpr hf)
  · simp [Program.func, hf, Func.tombstone]

theorem Laid.nodup_instrs (h : Laid p) (b : BlockId) : (p.block b).instrs.Nodup := by
  by_cases hb : b.index < p.blocks.size
  · have hall := nodup_instrIds 0 p.instrs.size
    rw [← h.instrs] at hall
    exact (List.nodup_flatMap.mp hall).1 b.index (List.mem_range.mpr hb)
  · simp [Program.block, hb, Block.tombstone]

/-- Every block stands once in its function, and every instruction once in one block. -/
structure ListedOnce (p : Program) : Prop where
  blocks : ∀ f : FuncId, (p.func f).blocks.Nodup
  instrs : ∀ b : BlockId, (p.block b).instrs.Nodup
  parents : ∀ (b c : BlockId) (i : InstrId), i ∈ (p.block b).instrs → i ∈ (p.block c).instrs → b = c

theorem Laid.listedOnce (h : Laid p) : ListedOnce p where
  blocks := h.nodup_blocks
  instrs := h.nodup_instrs
  parents b c i hb hc := Option.some.inj ((h.instrParent b i hb).symm.trans (h.instrParent c i hc))

/-- A local value of a function. -/
inductive IsLocal (p : Program) (f : FuncId) : Value → Prop
  | arg {i : Nat} (h : i < (p.func f).params.length) : IsLocal p f (.arg f i)
  | block {b : BlockId} (h : b ∈ (p.func f).blocks) : IsLocal p f (.block b)
  | instr {i : InstrId} (h : i ∈ p.instrsOf f) (hty : (p.instr i).ty ≠ .void) :
    IsLocal p f (.instr i)

theorem isVoid_eq_false {t : Ty} : t.isVoid = false ↔ t ≠ .void := by
  cases t <;> simp [Ty.isVoid]

theorem mem_definitions {v : Value} : v ∈ (definitions p f).map Prod.fst ↔ IsLocal p f v := by
  simp only [definitions, paramDefinitions, blockDefinitions, List.map_append, List.map_map,
    List.map_flatMap, List.map_cons, List.mem_append, List.mem_flatMap, List.mem_map,
    List.mem_cons, Function.comp_def, List.mem_filter]
  constructor
  · rintro (⟨⟨param, i⟩, hi, rfl⟩ | ⟨b, hb, rfl | ⟨i, ⟨hi, hty⟩, rfl⟩⟩)
    · exact .arg (List.mem_zipIdx' hi).1
    · exact .block hb
    · exact .instr (List.mem_flatMap.mpr ⟨b, hb, hi⟩) (isVoid_eq_false.mp (by simpa using hty))
  · intro h
    cases h with
    | @arg i h =>
      exact .inl ⟨((p.func f).params[i], i), List.mk_mem_zipIdx_iff_getElem?.mpr
        (List.getElem?_eq_getElem h), rfl⟩
    | block h => exact .inr ⟨_, h, .inl rfl⟩
    | instr h hty =>
      obtain ⟨b, hb, hi⟩ := List.mem_flatMap.mp h
      exact .inr ⟨b, hb, .inr ⟨_, ⟨hi, by simpa using isVoid_eq_false.mpr hty⟩, rfl⟩⟩

theorem nodup_definitions (h : ListedOnce p) : ((definitions p f).map Prod.fst).Nodup := by
  rw [definitions, List.map_append, List.nodup_append]
  refine ⟨?_, ?_, ?_⟩
  · have hparams : (paramDefinitions p f).map Prod.fst =
        (List.range (p.func f).params.length).map (Value.arg f) := by
      apply List.ext_getElem <;> simp [paramDefinitions]
    rw [hparams]
    exact List.Nodup.map (fun i j hij => by cases hij; rfl) List.nodup_range
  · rw [List.map_flatMap, List.nodup_flatMap]
    constructor
    · intro b hb
      simp only [blockDefinitions, List.map_cons, List.map_map, List.nodup_cons]
      refine ⟨by simp, ?_⟩
      exact List.Nodup.map (fun i j hij => by cases hij; rfl) ((h.instrs b).filter _)
    · refine (List.pairwise_iff_forall_sublist.mpr fun {b c} hbc => ?_)
      have hne : b ≠ c := by
        have := (h.blocks f).sublist hbc
        simpa using this
      intro v hb hc
      simp only [blockDefinitions, List.map_cons, List.map_map, List.mem_cons, List.mem_map,
        List.mem_filter] at hb hc
      rcases hb with rfl | ⟨i, ⟨hi, -⟩, rfl⟩
      · rcases hc with hc | ⟨j, -, hj⟩
        · exact hne (Value.block.inj hc)
        · cases hj
      · rcases hc with hc | ⟨j, ⟨hj, -⟩, hij⟩
        · cases hc
        · cases hij
          exact hne (h.parents b c i hi hj)
  · rintro v hv w hw rfl
    obtain ⟨d, hd, rfl⟩ := List.mem_map.mp hv
    obtain ⟨x, -, rfl⟩ := List.mem_map.mp hd
    obtain ⟨e, he, heq⟩ := List.mem_map.mp hw
    obtain ⟨b, -, he⟩ := List.mem_flatMap.mp he
    rcases List.mem_cons.mp he with rfl | he
    · cases heq
    · obtain ⟨i, -, rfl⟩ := List.mem_map.mp he
      cases heq

/-! ## 3. Symbols of local values -/

/-- What the function's values are written with. -/
def spelling (p : Program) (f : FuncId) : Spelling :=
  ⟨p, fun v => (symbolTable p f).reverse.lookup v⟩

/-- No local name of the function is a string of digits. -/
def PlainLocals (p : Program) (f : FuncId) : Prop :=
  ∀ d ∈ definitions p f, ∀ s ∈ d.2, isNumeral s = false

theorem symbolTable_fst : (symbolTable p f).map Prod.fst = (definitions p f).map Prod.fst :=
  Naming.symbols_fst _ _

theorem nodup_symbolTable (h : ListedOnce p) : ((symbolTable p f).map Prod.fst).Nodup :=
  symbolTable_fst ▸ nodup_definitions h

theorem symbol_iff (h : ListedOnce p) {v : Value} {s : Symbol} :
    (spelling p f).symbol v = some s ↔ (v, s) ∈ symbolTable p f := by
  change (symbolTable p f).reverse.lookup v = some s ↔ _
  rw [lookup_reverse (nodup_symbolTable h)]
  exact ⟨mem_of_lookup, lookup_of_mem (nodup_symbolTable h)⟩

theorem exists_symbol (h : ListedOnce p) {v : Value} (hv : IsLocal p f v) :
    ∃ s, (spelling p f).symbol v = some s ∧ (v, s) ∈ symbolTable p f := by
  rw [← mem_definitions, ← symbolTable_fst] at hv
  obtain ⟨⟨w, s⟩, hmem, rfl⟩ := List.mem_map.mp hv
  exact ⟨s, (symbol_iff h).mpr hmem, hmem⟩

theorem isLocal_of_symbol (h : ListedOnce p) {v : Value} {s : Symbol}
    (hs : (spelling p f).symbol v = some s) : IsLocal p f v := by
  rw [← mem_definitions, ← symbolTable_fst]
  exact List.mem_map.mpr ⟨_, (symbol_iff h).mp hs, rfl⟩

theorem mem_symbolTable (h : ListedOnce p) {v : Value} (hv : IsLocal p f v) :
    (v, (spelling p f).symbolOf v) ∈ symbolTable p f := by
  obtain ⟨s, hs, hmem⟩ := exists_symbol h hv
  rwa [Spelling.symbolOf, hs]

theorem symbolOf_injective (h : ListedOnce p) {v w : Value} (hv : IsLocal p f v)
    (hw : IsLocal p f w) (heq : (spelling p f).symbolOf v = (spelling p f).symbolOf w) : v = w := by
  have hdistinct : ((symbolTable p f).map Prod.snd).Nodup := Naming.symbols_distinct {}
  have hentry := List.inj_on_of_nodup_map hdistinct (mem_symbolTable h hv) (mem_symbolTable h hw) heq
  exact congrArg Prod.fst hentry

theorem not_numeral (h : ListedOnce p) (hplain : PlainLocals p f) {v : Value}
    (hv : IsLocal p f v) (n : Nat) : (spelling p f).symbolOf v ≠ .named (toString n) := by
  intro hname
  have hnumeral := Naming.symbols_plain {} hplain _ (mem_symbolTable h hv) (toString n) (by
    rw [hname]
    rfl)
  rw [isNumeral_toString] at hnumeral
  cases hnumeral

theorem symbols_injective (h : ListedOnce p) (hplain : PlainLocals p f) {v w : Value}
    (hv : IsLocal p f v) (hw : IsLocal p f w)
    (hkey : ((spelling p f).symbolOf v).key = ((spelling p f).symbolOf w).key) : v = w := by
  rcases Symbol.key_eq_iff.mp hkey with heq | ⟨n, ⟨hname, -⟩ | ⟨-, hname⟩⟩
  · exact symbolOf_injective h hv hw heq
  · exact absurd hname (not_numeral h hplain hv n)
  · exact absurd hname (not_numeral h hplain hw n)

theorem hasSymbol (h : ListedOnce p) (hsize : unnamed (definitions p f) < span 32) {v : Value}
    (hv : IsLocal p f v) : (spelling p f).HasSymbol v := by
  obtain ⟨s, hs, hmem⟩ := exists_symbol h hv
  refine ⟨s, hs, ?_⟩
  cases s with
  | named name => trivial
  | numbered n =>
    have hlt := Naming.symbols_lt {} _ hmem n rfl
    simp only [Nat.zero_add] at hlt
    exact Nat.lt_trans hlt hsize

theorem shows_slotsOf (p : Program) (f : FuncId) : (spelling p f).Shows ⟨p, slotsOf p f⟩ :=
  have hmatch := match_slotsOf p f
  { ty := fun _ => rfl
    func := fun _ => rfl
    signature := fun _ => rfl
    global := fun _ => rfl
    instr := hmatch.instr
    arg := hmatch.arg
    block := hmatch.block }

/-! ## 4. The names of slots -/

/-- The name that a local value of the function is written with; nothing where it is a number. -/
def slotName (p : Program) (f : FuncId) (v : Value) : Option String :=
  ((spelling p f).symbol v).bind Symbol.name?

theorem slotName_isNone (h : ListedOnce p) {d : Value × Option String} (hd : d ∈ definitions p f) :
    (slotName p f d.1).isNone = d.2.isNone := by
  have hmem := List.mem_map_of_mem (f := fun d => (d.1, d.2.isNone)) hd
  rw [← Naming.symbols_isNone {}] at hmem
  obtain ⟨x, hx, heq⟩ := List.mem_map.mp hmem
  have hfst : x.1 = d.1 := congrArg Prod.fst heq
  have hsnd : x.2.name?.isNone = d.2.isNone := congrArg Prod.snd heq
  have hs : (spelling p f).symbol d.1 = some x.2 := (symbol_iff h).mpr (hfst ▸ hx)
  rw [slotName, hs]
  exact hsnd

/-- The name that a value comes back with once its program was printed and read again. The
    parameters of a declaration are not written. -/
def nameBack (p : Program) : Value → Option String
  | .arg f i => if (p.func f).isDeclaration then none else slotName p f (.arg f i)
  | .block b => (p.block b).parent.bind fun f => slotName p f (.block b)
  | .instr i => (p.functionOf? i).bind fun f => slotName p f (.instr i)
  | _ => none

/-- The program under the names of its slots. -/
def relabelled (p : Program) : Program := p.relabel (nameBack p)

theorem nameBack_of_local (h : Laid p) (hdef : (p.func f).isDeclaration = false) {v : Value}
    (hv : IsLocal p f v) : nameBack p v = slotName p f v := by
  cases hv with
  | arg _ => simp [nameBack, hdef]
  | block hb => simp [nameBack, h.blockParent f _ hb]
  | instr hi _ => simp [nameBack, h.functionOf hi]

theorem definitions_relabel (h : Laid p) (name : Value → Option String) :
    definitions (p.relabel name) f = (definitions p f).map fun d => (d.1, name d.1) := by
  have hparams : paramDefinitions (p.relabel name) f =
      (paramDefinitions p f).map fun d => (d.1, name d.1) := by
    apply List.ext_getElem
    · simp [paramDefinitions, Program.func_relabel]
    · intro i h₁ h₂
      simp [paramDefinitions, Program.func_relabel]
  have hblocks : ∀ b ∈ (p.func f).blocks, blockDefinitions (p.relabel name) b =
      (blockDefinitions p b).map fun d => (d.1, name d.1) := by
    intro b hb
    simp only [blockDefinitions, Program.block_relabel p name (h.block_lt hb), List.map_cons,
      List.map_map, Program.instr_relabel_ty, List.cons.injEq, true_and]
    refine List.map_congr_left fun i hi => ?_
    have hlt := h.instr_lt (List.mem_of_mem_filter hi)
    simp [Program.instr_relabel p name hlt]
  rw [definitions, definitions, List.map_append, hparams, Program.func_relabel_blocks,
    List.map_flatMap]
  congr 1
  exact List.flatMap_congr hblocks

theorem symbolTable_relabelled (h : Laid p) (hdef : (p.func f).isDeclaration = false) :
    symbolTable (relabelled p) f = symbolTable p f := by
  have hdefs : definitions (relabelled p) f = (symbolTable p f).map fun x => (x.1, x.2.name?) := by
    have hfst : (definitions p f).map (fun d => (d.1, nameBack p d.1)) =
        (symbolTable p f).map fun x => (x.1, nameBack p x.1) := by
      have := congrArg (List.map fun v => (v, nameBack p v)) (symbolTable_fst (p := p) (f := f))
      simpa [List.map_map, Function.comp_def] using this.symm
    rw [relabelled, definitions_relabel h, hfst]
    refine List.map_congr_left fun x hx => ?_
    have hs : (spelling p f).symbol x.1 = some x.2 := (symbol_iff h.listedOnce).mpr hx
    rw [nameBack_of_local h hdef (isLocal_of_symbol h.listedOnce hs), slotName, hs]
    rfl
  rw [symbolTable, hdefs]
  exact Naming.symbols_renamed {} (definitions p f)

/-- Under the names of its slots a program shows the same symbols. -/
theorem shows_relabelled (h : Laid p) (hdef : (p.func f).isDeclaration = false) :
    (spelling p f).Shows ⟨relabelled p, slotsOf (relabelled p) f⟩ := by
  have hmatch := match_slotsOf (relabelled p) f
  rw [symbolTable_relabelled h hdef] at hmatch
  exact
    { ty := p.valueTy_relabel _
      func := fun g => by rw [relabelled, Program.func_relabel]; rfl
      signature := p.func_relabel_signature _
      global := fun _ => rfl
      instr := hmatch.instr
      arg := hmatch.arg
      block := hmatch.block }

end

end Assembly

end QirProfile
