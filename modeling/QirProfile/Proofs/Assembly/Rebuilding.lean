import QirProfile.Proofs.Assembly.Lines

/-!
# Bodies that are read again

The tree of a function as it is written (`IsFuncTree`) is entered into a program that already has the
functions before it. `enteredUpTo q k` is the program `q` with the bodies of the functions below `k`
only; `enteredUpTo_succ` says which nodes the next body adds, and the rest of the module that entering
the tree adds just these.
-/

namespace QirProfile.Assembly

open Text

variable {p : Program} {n : Nat} {group : Option Nat} {t : FuncTree} {bs : List BlockTree}
  {v : Value} {f : FuncId}

/-! ## 1. Programs that are entered up to a function -/

theorem Laid.relabel (h : Laid p) (name : Value → Option String) :
    Laid (p.relabel name) := by
  have hfuncs : (p.relabel name).functions.size = p.functions.size := by simp [Program.relabel]
  have hblocks : (p.relabel name).blocks.size = p.blocks.size := by simp [Program.relabel]
  have hinstrs : (p.relabel name).instrs.size = p.instrs.size := by simp [Program.relabel]
  refine ⟨?_, ?_, ?_, ?_, ?_, ?_, ?_⟩
  · simpa [hfuncs, hblocks] using h.blocks
  · simpa [hblocks, hinstrs] using h.instrs
  · simpa using h.blockParent
  · simpa using h.instrParent
  · intro f hf
    rw [Program.func_relabel]
    exact h.liveFunc f (hfuncs ▸ hf)
  · intro b hb
    rw [Program.block_relabel p name (hblocks ▸ hb)]
    exact h.liveBlock b (hblocks ▸ hb)
  · intro i hi
    rw [Program.instr_relabel p name (hinstrs ▸ hi)]
    exact h.liveInstr i (hinstrs ▸ hi)

/-- The program with the bodies of the functions below `k` only. -/
def enteredUpTo (q : Program) (k : Nat) : Program :=
  { q with
    functions := q.functions.mapIdx fun j f => if j < k then f else { f with blocks := [] }
    blocks := ((List.range k).flatMap fun j => (q.func ⟨j⟩).blocks.map q.block).toArray
    instrs := ((List.range k).flatMap fun j => (q.instrsOf ⟨j⟩).map q.instr).toArray }

section

variable {q : Program} {k : Nat}

theorem range'_piece {α : Type} {handle : Nat → α} {xs ys zs : List α}
    (h : xs ++ ys ++ zs = (List.range' 0 n).map handle) :
    ys = (List.range' xs.length ys.length).map handle := by
  refine List.ext_getElem (by simp) fun i hi _ => ?_
  have hat := congrArg (fun l => l[xs.length + i]?) h
  have hlen := congrArg List.length h
  simp only [List.length_append, List.length_map, List.length_range'] at hlen
  simp only [List.append_assoc, List.getElem?_append_right (Nat.le_add_right xs.length i),
    Nat.add_sub_cancel_left, List.getElem?_append_left hi, List.getElem?_eq_getElem hi] at hat
  rw [List.getElem?_eq_getElem (by simp; omega)] at hat
  simpa using hat

theorem flatMap_range_split {α : Type} (g : Nat → List α) (hk : k < n) :
    ∃ zs, (List.range n).flatMap g = (List.range k).flatMap g ++ g k ++ zs := by
  obtain ⟨d, rfl⟩ : ∃ d, n = k + 1 + d := ⟨n - (k + 1), by omega⟩
  rw [List.range_add, List.flatMap_append, List.range_succ, List.flatMap_append]
  exact ⟨_, by rw [List.flatMap_singleton]⟩

theorem Laid.instrsOf (h : Laid q) :
    (List.range q.functions.size).flatMap (fun k => q.instrsOf ⟨k⟩) = instrIds 0 q.instrs.size := by
  simp only [Program.instrsOf]
  rw [← List.flatMap_assoc, h.blocks, ← h.instrs, blockIds, List.flatMap_map, List.range_eq_range']

theorem Laid.blocks_at (h : Laid q) (hk : k < q.functions.size) : (q.func ⟨k⟩).blocks =
    blockIds (enteredUpTo q k).blocks.size (q.func ⟨k⟩).blocks.length := by
  obtain ⟨zs, hzs⟩ := flatMap_range_split (fun j => (q.func ⟨j⟩).blocks) hk
  have hpiece := range'_piece (hzs.symm.trans h.blocks)
  rwa [show (enteredUpTo q k).blocks.size =
    ((List.range k).flatMap fun j => (q.func ⟨j⟩).blocks).length by simp [enteredUpTo]]

theorem Laid.instrs_at (h : Laid q) (hk : k < q.functions.size) : q.instrsOf ⟨k⟩ =
    instrIds (enteredUpTo q k).instrs.size (q.instrsOf ⟨k⟩).length := by
  obtain ⟨zs, hzs⟩ := flatMap_range_split (fun j => q.instrsOf ⟨j⟩) hk
  have hpiece := range'_piece (hzs.symm.trans h.instrsOf)
  rwa [show (enteredUpTo q k).instrs.size =
    ((List.range k).flatMap fun j => q.instrsOf ⟨j⟩).length by simp [enteredUpTo]]

theorem map_block_blockIds (q : Program) :
    (blockIds 0 q.blocks.size).map q.block = q.blocks.toList :=
  List.ext_getElem (by simp [blockIds]) (by simp +contextual [blockIds, Program.block])

theorem map_instr_instrIds (q : Program) :
    (instrIds 0 q.instrs.size).map q.instr = q.instrs.toList :=
  List.ext_getElem (by simp [instrIds]) (by simp +contextual [instrIds, Program.instr])

theorem enteredUpTo_size (h : Laid q) : enteredUpTo q q.functions.size = q := by
  have hfuncs : q.functions.mapIdx (fun j f => if j < q.functions.size then f else
      { f with blocks := [] }) = q.functions :=
    Array.ext (by simp) (by simp +contextual)
  have hblocks : ((List.range q.functions.size).flatMap fun j =>
      (q.func ⟨j⟩).blocks.map q.block).toArray = q.blocks := by
    rw [← List.map_flatMap, h.blocks, map_block_blockIds]
  have hinstrs : ((List.range q.functions.size).flatMap fun j =>
      (q.instrsOf ⟨j⟩).map q.instr).toArray = q.instrs := by
    rw [← List.map_flatMap, h.instrsOf, map_instr_instrIds]
  rw [enteredUpTo, hfuncs, hblocks, hinstrs]

theorem enteredUpTo_succ (h : Laid q) (hk : k < q.functions.size) :
    enteredUpTo q (k + 1) = withBody (enteredUpTo q k) ⟨k⟩ ((q.func ⟨k⟩).blocks.map q.block)
      ((q.instrsOf ⟨k⟩).map q.instr) := by
  have hfuncs : (enteredUpTo q (k + 1)).functions = (enteredUpTo q k).functions.modify k
      ({ · with blocks := (q.func ⟨k⟩).blocks }) := by
    refine Array.ext (by simp [enteredUpTo]) fun j h₁ h₂ => ?_
    have hj : j < q.functions.size := by simpa [enteredUpTo] using h₁
    simp only [enteredUpTo, Array.getElem_mapIdx, Array.getElem_modify]
    rcases Nat.lt_trichotomy j k with hlt | rfl | hgt
    · rw [if_pos (by omega), if_neg (by omega), if_pos hlt]
    · rw [if_pos (by omega), if_pos rfl, if_neg (by omega)]
      simp [Program.func, hj]
    · rw [if_neg (by omega), if_neg (by omega), if_neg (by omega)]
  rw [withBody, List.length_map, ← h.blocks_at hk, ← hfuncs]
  simp [enteredUpTo, List.range_succ]

end

/-! ## 2. Trees of the parts of a function -/

/-- The tree is the instruction as it is written. -/
structure IsInstrTree (p : Program) (f : FuncId) (id : InstrId) (t : InstrTree) : Prop where
  result : t.result =
    if (p.instr id).ty.isVoid then none else some ((spelling p f).symbolOf (.instr id))
  renders : (spelling p f).Renders (p.instr id) t.operation

/-- The number that the parameters of a function leave. -/
def firstSlot (p : Program) (f : FuncId) : Nat :=
  (Naming.afterAll {} (paramDefinitions p f)).next

/-- The tree is the block as it is written. -/
structure IsBlockTree (p : Program) (f : FuncId) (b : BlockId) (t : BlockTree) : Prop where
  symbol : t.symbol (firstSlot p f) = (spelling p f).symbolOf (.block b)
  instrs : List.Forall₂ (IsInstrTree p f) (p.block b).instrs t.instrs

/-- The tree is the function as it is written. -/
structure IsFuncTree (p : Program) (f : FuncId) (group : Option Nat) (t : FuncTree) : Prop where
  head : { t with blocks := [] } = headTree p f group
  blocks : List.Forall₂ (IsBlockTree p f) (p.func f).blocks t.blocks

theorem forall₂_of_map_eq {α β γ δ : Type} {R : α → β → Prop} {S : α → δ → Prop} {g : β → γ}
    {u : δ → γ} {as : List α} {bs : List β} (h : List.Forall₂ R as bs) :
    ∀ {ds : List δ}, ds.map u = bs.map g → (∀ a b d, R a b → u d = g b → S a d) →
      List.Forall₂ S as ds := by
  induction h with
  | nil =>
    intro ds heq _
    rw [List.map_eq_nil_iff.mp heq]
    exact .nil
  | cons hab _ ih =>
    intro ds heq himp
    obtain ⟨d, ds, rfl, hd, hds⟩ := List.map_eq_cons_iff.mp heq
    exact .cons (himp _ _ d hab hd) (ih hds himp)

section

variable {p : Program} {f : FuncId} (h : Printable p)
include h

omit h in
theorem symbolOf_entry (h : ListedOnce p) {b : BlockId} {bs : List BlockId} (hb : (p.func f).blocks = b :: bs)
    (hname : (p.block b).name = none) :
    (spelling p f).symbolOf (.block b) = .numbered (firstSlot p f) := by
  have hmem : (Value.block b, Symbol.numbered (firstSlot p f)) ∈ symbolTable p f := by
    rw [symbolTable, definitions, Naming.symbols_append, hb, List.flatMap_cons, blockDefinitions,
      hname]
    exact List.mem_append_right _ List.mem_cons_self
  rw [Spelling.symbolOf, (symbol_iff h).mpr hmem]
  rfl

omit h in
theorem isInstrTree_of_draft {id : InstrId} {x : InstrDraft} {t : InstrTree}
    (hx : IsInstrDraft p f id x) (ht : t.unlined = x.tree) : IsInstrTree p f id t := by
  have hresult : t.result = x.result := congrArg InstrTree.result ht
  have hop : t.operation = x.operation := congrArg InstrTree.operation ht
  exact ⟨hresult.trans hx.result, hop ▸ hx.renders⟩

theorem isBlockTree_of_draft {x : BlockId × Nat} (hx : x ∈ (p.func f).blocks.zipIdx)
    {b : BlockDraft} {t : BlockTree} (hb : IsBlockDraft p f (x.2 == 0) x.1 b)
    (ht : t.unlined = b.tree) : IsBlockTree p f x.1 t := by
  have hlabel : t.label = b.label := congrArg BlockTree.label ht
  have hinstrs : t.instrs.map InstrTree.unlined = b.instrs.map InstrDraft.tree :=
    congrArg BlockTree.instrs ht
  refine ⟨?_, forall₂_of_map_eq hb.instrs hinstrs fun _ _ _ => isInstrTree_of_draft⟩
  rw [BlockTree.symbol, hlabel, hb.label]
  split
  · rename_i hentry
    simp only [Bool.and_eq_true, beq_iff_eq, Option.isNone_iff_eq_none] at hentry
    have hfirst := List.mk_mem_zipIdx_iff_getElem?.mp (show (x.1, x.2) ∈ _ from hx)
    rw [hentry.1] at hfirst
    cases hblocks : (p.func f).blocks with
    | nil => simp [hblocks] at hfirst
    | cons b₀ bs =>
      rw [hblocks, List.getElem?_cons_zero, Option.some.injEq] at hfirst
      exact (symbolOf_entry h.laid.listedOnce (hfirst ▸ hblocks) hentry.2).symm
  · rfl

theorem isFuncTree_of_draft {d : FuncDraft}
    (hd : IsFuncDraft p f group d) (ht : t.unlined = d.tree) : IsFuncTree p f group t := by
  have hhead : { t with blocks := [] } = headTree p f group := by
    have := congrArg (fun t : FuncTree => { t with blocks := [] }) ht
    simpa [FuncTree.unlined, FuncDraft.tree, hd.head, headTree] using this
  have hblocks : t.blocks.map BlockTree.unlined = d.blocks.map BlockDraft.tree :=
    congrArg FuncTree.blocks ht
  have htrees : List.Forall₂ (fun (x : BlockId × Nat) b => IsBlockTree p f x.1 b)
      (p.func f).blocks.zipIdx t.blocks := by
    have hplaces := (List.forall₂_and_left _ _).mpr
      ⟨fun x (hx : x ∈ (p.func f).blocks.zipIdx) => hx, hd.blocks⟩
    exact forall₂_of_map_eq hplaces hblocks fun x b t hxb htree =>
      isBlockTree_of_draft h hxb.1 hxb.2 htree
  refine ⟨hhead, ?_⟩
  rwa [← List.forall₂_map_left_iff, List.zipIdx_map_fst] at htrees

end

/-! ## 3. Local values in scope -/

/-- Parameters with their names, from a position on. -/
def paramsFrom (f : FuncId) (index : Nat) (params : List Param) : List (Value × Option String) :=
  (params.zipIdx index).map fun x => (.arg f x.2, x.1.name)

theorem paramsFrom_cons (f : FuncId) (index : Nat) (param : Param) (rest : List Param) :
    paramsFrom f index (param :: rest) =
      (.arg f index, param.name) :: paramsFrom f (index + 1) rest := rfl

theorem Naming.nextSlot_symbol (naming : Naming) (name : Option String) :
    nextSlot naming.next (naming.symbol name) = (naming.after name).next := by
  cases name <;> rfl

theorem enterParams_symbols {f : FuncId} {params : List Param} :
    ∀ (naming : Naming) (index : Nat) {trees : List (Ty × Option Symbol)},
      trees.map Prod.snd = (naming.symbols (paramsFrom f index params)).map (fun x => some x.2) →
      naming.next + unnamed (paramsFrom f index params) < span 32 →
      enterParams f index naming.next trees =
        .ok (((naming.symbols (paramsFrom f index params)).map fun x => (x.2.key, x.1)).reverse,
          (naming.afterAll (paramsFrom f index params)).next) := by
  induction params with
  | nil =>
    intro naming index trees htrees _
    rw [List.map_eq_nil_iff.mp htrees]
    rfl
  | cons param rest ih =>
    intro naming index trees htrees hsize
    have hlt : ∀ x ∈ naming.symbols (paramsFrom f index (param :: rest)), ∀ n, x.2 = .numbered n →
        n < naming.next + unnamed (paramsFrom f index (param :: rest)) := Naming.symbols_lt naming
    rw [paramsFrom_cons] at htrees hlt hsize ⊢
    obtain ⟨t, trees, rfl, ht, hrest⟩ := List.map_eq_cons_iff.mp htrees
    have hslot : t.2.getD (.numbered naming.next) = naming.symbol param.name := by
      rw [ht]
      rfl
    have hsmall : (naming.after param.name).next + unnamed (paramsFrom f (index + 1) rest) <
        span 32 := by
      cases hname : param.name with
      | none =>
        simp only [hname, unnamed, List.filter_cons, Option.isNone_none, if_true,
          List.length_cons] at hsize
        simp only [unnamed, Naming.after, Naming.symbol]
        omega
      | some name =>
        simpa [hname, unnamed, Naming.after, Naming.symbol] using hsize
    have hmore := ih _ (index + 1) hrest hsmall
    refine enterParams_cons.mpr ⟨fun n hn => ?_, (((naming.after param.name).symbols
      (paramsFrom f (index + 1) rest)).map fun x => (x.2.key, x.1)).reverse, ?_, ?_⟩
    · rw [hslot] at hn
      have := hlt _ List.mem_cons_self n hn
      omega
    · rw [hslot, Naming.nextSlot_symbol, hmore]
      rfl
    · rw [hslot]
      simp [Naming.symbols]

section

variable {p : Program} {f : FuncId} (h : Printable p)
include h

omit h in
theorem mem_symbolTable_of_param {x : Value × Symbol}
    (hx : x ∈ Naming.symbols {} (paramDefinitions p f)) : x ∈ symbolTable p f := by
  rw [symbolTable, definitions, Naming.symbols_append]
  exact List.mem_append_left _ hx

omit h in
theorem paramSymbols (h : ListedOnce p) : Naming.symbols {} (paramDefinitions p f) =
    (List.range (p.func f).params.length).map fun i =>
      (.arg f i, (spelling p f).symbolOf (.arg f i)) := by
  have hvalues : (Naming.symbols {} (paramDefinitions p f)).map Prod.fst =
      (List.range (p.func f).params.length).map (Value.arg f) := by
    rw [Naming.symbols_fst, paramDefinitions, List.map_map, List.range_eq_range',
      ← List.zipIdx_map_snd, List.map_map]
    rfl
  have hself : (Naming.symbols {} (paramDefinitions p f)).map (fun x =>
      (x.1, (spelling p f).symbolOf x.1)) = Naming.symbols {} (paramDefinitions p f) := by
    refine (List.map_congr_left fun x hx => ?_).trans (List.map_id _)
    rw [Spelling.symbolOf, (symbol_iff h).mpr (mem_symbolTable_of_param hx)]
    rfl
  have hmap := congrArg (List.map fun v => (v, (spelling p f).symbolOf v)) hvalues
  rw [List.map_map, List.map_map] at hmap
  exact hself.symm.trans hmap

/-- The parameters of a function as they are entered. -/
def paramEntries (p : Program) (f : FuncId) : List (String × Value) :=
  ((List.range (p.func f).params.length).map fun i =>
    (((spelling p f).symbolOf (.arg f i)).key, .arg f i)).reverse

theorem enterParams_tree (ht : IsFuncTree p f group t)
    (hdef : (p.func f).isDeclaration = false) :
    enterParams f 0 0 t.params = .ok (paramEntries p f, firstSlot p f) := by
  have hparams : t.params = (p.func f).params.zipIdx.map (paramTree p f) :=
    congrArg FuncTree.params ht.head
  have hentries : ((Naming.symbols {} (paramDefinitions p f)).map fun x =>
      (x.2.key, x.1)).reverse = paramEntries p f := by
    rw [paramSymbols h.laid.listedOnce, List.map_map]
    rfl
  rw [← hentries]
  refine @enterParams_symbols f (p.func f).params {} 0 _ ?_ ?_
  · refine Eq.trans ?_ (congrArg (List.map _) (paramSymbols h.laid.listedOnce).symm)
    rw [hparams, List.map_map, List.map_map, List.range_eq_range', ← List.zipIdx_map_snd,
      List.map_map]
    simp [paramTree, hdef, Function.comp_def]
  · have hsize := h.bounded.locals f
    simp only [definitions, unnamed, List.filter_append, List.length_append] at hsize
    exact Nat.lt_of_le_of_lt (by simp [paramsFrom, paramDefinitions, unnamed]) hsize

end

/-! ## 4. Instructions and blocks of a body -/

section

variable {p : Program} {f : FuncId}

theorem blockIds_succ (n count : Nat) : blockIds n (count + 1) = ⟨n⟩ :: blockIds (n + 1) count := by
  simp [blockIds, List.range'_succ]

theorem forall₂_placed : ∀ (start : Nat),
    List.Forall₂ (IsBlockTree p f) (blockIds start bs.length) bs →
      List.Forall₂ (fun i x => i ∈ (p.block x.1).instrs ∧ IsInstrTree p f i x.2)
        ((blockIds start bs.length).flatMap fun b => (p.block b).instrs) (placed start bs) := by
  induction bs with
  | nil => exact fun _ _ => .nil
  | cons b bs ih =>
    intro start hbs
    rw [List.length_cons, blockIds_succ, List.forall₂_cons] at hbs
    rw [List.length_cons, blockIds_succ, List.flatMap_cons, placed]
    refine List.rel_append ?_ (ih (start + 1) hbs.2)
    rw [List.forall₂_map_right_iff]
    exact (List.forall₂_and_left _ _).mpr ⟨fun i hi => hi, hbs.1.instrs⟩

theorem forall₂_instrs {ids : List BlockId}
    (hbs : List.Forall₂ (IsBlockTree p f) ids bs) : List.Forall₂ (IsInstrTree p f)
      (ids.flatMap fun b => (p.block b).instrs) (bs.flatMap BlockTree.instrs) := by
  induction hbs with
  | nil => exact .nil
  | cons hb _ ih =>
    rw [List.flatMap_cons, List.flatMap_cons]
    exact List.rel_append hb.instrs ih

/-- The entry of a result under its key. -/
def resultOf (p : Program) (f : FuncId) (i : InstrId) : String × Value :=
  (((spelling p f).symbolOf (.instr i)).key, .instr i)

theorem resultEntries_trees {ts : List InstrTree} : ∀ {n : Nat},
    List.Forall₂ (IsInstrTree p f) (instrIds n ts.length) ts →
      resultEntries n ts =
        ((instrIds n ts.length).filter fun i => !(p.instr i).ty.isVoid).map (resultOf p f) := by
  induction ts with
  | nil => exact fun _ => rfl
  | cons t ts ih =>
    intro n hts
    rw [List.length_cons, instrIds_succ, List.forall₂_cons] at hts
    rw [List.length_cons, instrIds_succ, resultEntries, ih hts.2, List.filter_cons]
    cases hvoid : (p.instr ⟨n⟩).ty.isVoid <;> simp [resultEntry, hts.1.result, hvoid, resultOf]

theorem resultKeys_trees {ids : List InstrId} {ts : List InstrTree}
    (hts : List.Forall₂ (IsInstrTree p f) ids ts) : ts.flatMap resultKey =
      (ids.filter fun i => !(p.instr i).ty.isVoid).map fun i => (resultOf p f i).1 := by
  induction hts with
  | nil => rfl
  | @cons i t _ _ ht _ ih =>
    rw [List.flatMap_cons, ih, List.filter_cons]
    cases hvoid : (p.instr i).ty.isVoid <;> simp [resultKey, ht.result, hvoid, resultOf]

theorem blockNodes_trees {ids : List BlockId} {bs : List BlockTree}
    (hbs : List.Forall₂ (IsBlockTree p f) ids bs) : ∀ {n : Nat},
      (ids.flatMap fun b => (p.block b).instrs) =
        instrIds n (bs.flatMap BlockTree.instrs).length →
      blockNodes f (firstSlot p f) n bs = ids.map fun b =>
        { name := ((spelling p f).symbolOf (.block b)).name?, parent := some f
          instrs := (p.block b).instrs } := by
  induction hbs with
  | nil => exact fun _ => rfl
  | @cons b t _ _ ht _ ih =>
    intro n hinstrs
    have hlen := ht.instrs.length_eq
    rw [List.flatMap_cons, List.flatMap_cons, List.length_append, ← instrIds_append] at hinstrs
    obtain ⟨hfirst, hrest⟩ := List.append_inj hinstrs (by simp [instrIds, hlen])
    rw [blockNodes, List.map_cons, ih hrest, ht.symbol, ← hfirst]

end

/-! ## 5. The scope of a body -/

theorem lookup_of_unique {κ α : Type} [BEq κ] [LawfulBEq κ] {l : List (κ × α)} {k : κ} {a : α}
    (hmem : (k, a) ∈ l)
    (hunique : ∀ b, (k, b) ∈ l → b = a) : l.lookup k = some a := by
  cases hl : l.lookup k with
  | none => exact absurd rfl (bne_iff_ne.mp (List.lookup_eq_none_iff.mp hl _ hmem))
  | some b => rw [hunique b (mem_of_lookup hl)]

/-- The next handles of `P` are those of the function's blocks and instructions, and the tree is the
    function as it is written. -/
structure IsNext (p P : Program) (f : FuncId) (t : FuncTree) : Prop where
  types : P.namedTypes = p.namedTypes
  defined : (p.func f).isDeclaration = false
  blocks : (p.func f).blocks = blockIds P.blocks.size t.blocks.length
  instrs : p.instrsOf f = instrIds P.instrs.size (t.blocks.flatMap BlockTree.instrs).length
  trees : List.Forall₂ (IsBlockTree p f) (p.func f).blocks t.blocks

/-- The names in scope in the body of the tree. -/
def treeScope (p P : Program) (f : FuncId) (t : FuncTree) : Scope :=
  bodyScope P t (paramEntries p f) (firstSlot p f)

section

variable {p P : Program} {f : FuncId} {t : FuncTree} (h : Printable p) (hnext : IsNext p P f t)
include h

omit h in
theorem mem_paramEntries {x : String × Value} : x ∈ paramEntries p f ↔
    ∃ i < (p.func f).params.length, x = (((spelling p f).symbolOf (.arg f i)).key, .arg f i) := by
  simp [paramEntries, eq_comm]

include hnext

omit h in
theorem treeScope_values : (treeScope p P f t).values =
    (((p.instrsOf f).filter fun i => !(p.instr i).ty.isVoid).map (resultOf p f)).reverse ++
      paramEntries p f := by
  have htrees := forall₂_instrs hnext.trees
  have hinstrs := hnext.instrs
  rw [Program.instrsOf] at hinstrs
  rw [hinstrs] at htrees
  rw [treeScope, bodyScope, resultEntries_trees htrees, ← hnext.instrs]

omit h in
theorem mem_treeScope {x : String × Value} : x ∈ (treeScope p P f t).values ↔
    IsLocal p f x.2 ∧ (∀ b, x.2 ≠ .block b) ∧ x.1 = ((spelling p f).symbolOf x.2).key := by
  rw [treeScope_values hnext, List.mem_append, List.mem_reverse, List.mem_map, mem_paramEntries]
  constructor
  · rintro (⟨i, hi, rfl⟩ | ⟨i, hi, rfl⟩)
    · obtain ⟨hi, hvoid⟩ := List.mem_filter.mp hi
      exact ⟨.instr hi (by simpa [isVoid_eq_false] using hvoid), (fun _ hb => by cases hb), rfl⟩
    · exact ⟨.arg hi, (fun _ hb => by cases hb), rfl⟩
  · rintro ⟨hlocal, hblock, hkey⟩
    obtain ⟨k, v⟩ := x
    cases hlocal with
    | arg hi => exact .inr ⟨_, hi, by rw [← hkey]⟩
    | block hb => exact absurd rfl (hblock _)
    | instr hi hty =>
      refine .inl ⟨_, List.mem_filter.mpr ⟨hi, ?_⟩, by rw [resultOf, ← hkey]⟩
      rw [isVoid_eq_false.mpr hty]
      rfl

theorem lookup_treeScope (hv : IsLocal p f v) (hblock : ∀ b, v ≠ .block b) :
    (treeScope p P f t).values.lookup ((spelling p f).symbolOf v).key = some v := by
  refine lookup_of_unique ((mem_treeScope hnext).mpr ⟨hv, hblock, rfl⟩) fun w hw => ?_
  obtain ⟨hlocal, -, hkey⟩ := (mem_treeScope hnext).mp hw
  exact symbols_injective h.laid.listedOnce (h.names.locals f) hlocal hv hkey.symm

omit h in
theorem treeScope_blocks : (treeScope p P f t).blocks =
    ((p.func f).blocks.map fun b => (((spelling p f).symbolOf (.block b)).key, b)).reverse := by
  have hkeys : t.blocks.map (fun b => (b.symbol (firstSlot p f)).key) =
      (p.func f).blocks.map fun b => ((spelling p f).symbolOf (.block b)).key :=
    map_eq_of_forall₂ hnext.trees fun b t ht => by rw [ht.symbol]
  rw [treeScope, bodyScope, hkeys, ← hnext.blocks, List.zip_map_left, List.zip_eq_zipWith,
    List.zipWith_self, List.map_map]
  rfl

theorem lookup_treeBlocks {b : BlockId} (hb : b ∈ (p.func f).blocks) :
    (treeScope p P f t).blocks.lookup ((spelling p f).symbolOf (.block b)).key = some b := by
  rw [treeScope_blocks hnext]
  refine lookup_of_unique (List.mem_reverse.mpr (List.mem_map.mpr ⟨b, hb, rfl⟩)) fun b' hb' => ?_
  obtain ⟨b'', hb'', heq⟩ := List.mem_map.mp (List.mem_reverse.mp hb')
  obtain ⟨hkey, rfl⟩ := Prod.mk.injEq .. ▸ heq
  have hvalue := symbols_injective h.laid.listedOnce (h.names.locals f) (.block hb'') (.block hb) hkey
  cases hvalue
  rfl

end

/-! ## 6. Global symbols -/

section

variable {gs fs : List String} {s : String} {k : Nat}

theorem mem_symbols : (s, v) ∈ globalSymbols gs ++ functionSymbols fs ↔
    (∃ k, gs[k]? = some s ∧ v = .global ⟨k⟩) ∨ ∃ k, fs[k]? = some s ∧ v = .func ⟨k⟩ := by
  simp only [globalSymbols, functionSymbols, List.mem_append, List.mem_map, Prod.exists,
    List.mk_mem_zipIdx_iff_getElem?, Prod.mk.injEq]
  constructor
  · rintro (⟨_, k, hk, rfl, rfl⟩ | ⟨_, k, hk, rfl, rfl⟩)
    · exact .inl ⟨k, hk, rfl⟩
    · exact .inr ⟨k, hk, rfl⟩
  · rintro (⟨k, hk, rfl⟩ | ⟨k, hk, rfl⟩)
    · exact .inl ⟨_, k, hk, rfl, rfl⟩
    · exact .inr ⟨_, k, hk, rfl, rfl⟩

variable (hapart : ∀ s ∈ fs, s ∉ gs)
include hapart

theorem lookup_global (hgs : gs.Nodup) (hk : gs[k]? = some s) :
    (globalSymbols gs ++ functionSymbols fs).lookup s = some (.global ⟨k⟩) := by
  refine lookup_of_unique (mem_symbols.mpr (.inl ⟨k, hk, rfl⟩)) fun v hv => ?_
  rcases mem_symbols.mp hv with ⟨j, hj, rfl⟩ | ⟨j, hj, rfl⟩
  · have hlt := (List.getElem?_eq_some_iff.mp hj).1
    rw [(List.getElem?_inj hlt hgs).mp (hj.trans hk.symm)]
  · exact absurd (List.mem_of_getElem? hk) (hapart s (List.mem_of_getElem? hj))

theorem lookup_function (hfs : fs.Nodup) (hk : fs[k]? = some s) :
    (globalSymbols gs ++ functionSymbols fs).lookup s = some (.func ⟨k⟩) := by
  refine lookup_of_unique (mem_symbols.mpr (.inr ⟨k, hk, rfl⟩)) fun v hv => ?_
  rcases mem_symbols.mp hv with ⟨j, hj, rfl⟩ | ⟨j, hj, rfl⟩
  · exact absurd (List.mem_of_getElem? hj) (hapart s (List.mem_of_getElem? hk))
  · have hlt := (List.getElem?_eq_some_iff.mp hj).1
    rw [(List.getElem?_inj hlt hfs).mp (hj.trans hk.symm)]

end

/-- What the global symbols of a program stand for. -/
def symbolsOf (p : Program) : List (String × Value) :=
  globalSymbols (p.globals.toList.map Global.name) ++
    functionSymbols (p.functions.toList.map Func.name)

section

variable {p : Program} (h : Printable p)
include h

theorem names_apart : ∀ s ∈ p.functions.toList.map Func.name,
    s ∉ p.globals.toList.map Global.name := by
  intro s hs
  obtain ⟨f, hf, rfl⟩ := List.mem_map.mp hs
  exact h.apart f hf

theorem global_symbolsOf (types : Program) (scope : Option Scope) {g : GlobalId}
    (hg : g.index < p.globals.size) :
    (Names.mk types (symbolsOf p) scope).global (globalSymbol (p.global g).name) =
      .ok (.global g) := by
  have hk : (p.globals.toList.map Global.name)[g.index]? = some (p.global g).name := by
    simp [Program.global, hg]
  rw [Names.global, (globalSymbol_spec (h.names.globals _ (global_mem hg))).2.2, symbolsOf,
    lookup_global (names_apart h) h.globalNames hk]

theorem func_symbolsOf (types : Program) (scope : Option Scope)
    (hf : f.index < p.functions.size) :
    (Names.mk types (symbolsOf p) scope).global (globalSymbol (p.func f).name) = .ok (.func f) := by
  have hk : (p.functions.toList.map Func.name)[f.index]? = some (p.func f).name := by
    simp [Program.func, hf]
  rw [Names.global, (globalSymbol_spec (h.names.functions _ (func_mem hf))).2.2, symbolsOf,
    lookup_function (names_apart h) h.functionNames hk]

end

/-! ## 7. A body is entered again -/

section

variable {p P : Program} {f : FuncId} {t : FuncTree} (h : Printable p) (hnext : IsNext p P f t)
include h hnext

theorem local_treeScope {s : Symbol} (hs : (spelling p f).symbol v = some s)
    (hblock : ∀ b, v ≠ .block b) :
    (Names.mk P (symbolsOf p) (some (treeScope p P f t))).local s = .ok v := by
  have hfound := lookup_treeScope h hnext (isLocal_of_symbol h.laid.listedOnce hs) hblock
  have hsymbol : (spelling p f).symbolOf v = s := by
    rw [Spelling.symbolOf, hs]
    rfl
  rw [hsymbol] at hfound
  simp only [Names.local, hfound]

theorem resolves_tree :
    (spelling p f).Resolves ⟨P, symbolsOf p, some (treeScope p P f t)⟩ where
  types := hnext.types
  instr := fun _ _ hs => local_treeScope h hnext hs fun _ hb => by cases hb
  arg := fun _ _ _ hs => local_treeScope h hnext hs fun _ hb => by cases hb
  func := fun _ hf _ => func_symbolsOf h _ _ hf
  global := fun _ hg _ => global_symbolsOf h _ _ hg

theorem resolvesBlocks_tree : (spelling p f).ResolvesBlocks (treeScope p P f t) := by
  intro b s hs
  have hb : b ∈ (p.func f).blocks := by
    cases isLocal_of_symbol h.laid.listedOnce hs with
    | block hb => exact hb
  have hfound := lookup_treeBlocks h hnext hb
  have hsymbol : (spelling p f).symbolOf (.block b) = s := by
    rw [Spelling.symbolOf, hs]
    rfl
  rw [hsymbol] at hfound
  rw [Scope.block, hfound]

omit hnext in
theorem nameBack_instr {i : InstrId} (hi : i ∈ p.instrsOf f) {x : InstrTree} (ht : IsInstrTree p f i x) :
    nameBack p (.instr i) = x.result.bind Symbol.name? := by
  rw [ht.result]
  have hslot : nameBack p (.instr i) = slotName p f (.instr i) := by
    simp [nameBack, h.laid.functionOf hi]
  rw [hslot, slotName]
  split
  · rename_i hvoid
    cases hs : (spelling p f).symbol (.instr i) with
    | none => rfl
    | some s =>
      cases isLocal_of_symbol h.laid.listedOnce hs with
      | instr _ hty => exact absurd hvoid (by simp [isVoid_eq_false.mpr hty])
  · rename_i hvoid
    have hty := isVoid_eq_false.mp (Bool.eq_false_iff.mpr hvoid)
    obtain ⟨s, hs, -⟩ := exists_symbol h.laid.listedOnce (.instr hi hty)
    simp [Spelling.symbolOf, hs]

theorem fills_tree {i : InstrId} {x : BlockId × InstrTree} (hof : i ∈ p.instrsOf f)
    (hi : i ∈ (p.block x.1).instrs) (ht : IsInstrTree p f i x.2) :
    Fills P ⟨P, symbolsOf p, some (treeScope p P f t)⟩ (treeScope p P f t) x
      ((relabelled p).instr i) := by
  have hfills := Spelling.fills_of_renders hnext.types (resolves_tree h hnext)
    (resolvesBlocks_tree h hnext) ht.renders x.1 x.2.result x.2.line
  have hnode : (relabelled p).instr i = { p.instr i with
      name := x.2.result.bind Symbol.name?, parent := some x.1, erased := false } := by
    rw [relabelled, Program.instr_relabel p _ (h.laid.instr_lt hi),
      nameBack_instr h hof ht, ← h.laid.instrParent _ i hi,
      ← h.laid.liveInstr i (h.laid.instr_lt hi)]
  rw [hnode]
  exact hfills

omit hnext in
theorem nodup_keys {α : Type} {xs : List α} {value : α → Value} (hxs : xs.Nodup)
    (hinj : ∀ a b, value a = value b → a = b) (hlocal : ∀ a ∈ xs, IsLocal p f (value a)) :
    (xs.map fun a => ((spelling p f).symbolOf (value a)).key).Nodup :=
  hxs.map_on fun a ha b hb hkey =>
    hinj a b (symbols_injective h.laid.listedOnce (h.names.locals f) (hlocal a ha) (hlocal b hb) hkey)

theorem canEnter_tree :
    CanEnter (paramEntries p f) ((t.blocks.flatMap BlockTree.instrs).flatMap resultKey) := by
  have hlocal : ∀ i ∈ (p.instrsOf f).filter (fun i => !(p.instr i).ty.isVoid),
      IsLocal p f (.instr i) := by
    intro i hi
    obtain ⟨hi, hvoid⟩ := List.mem_filter.mp hi
    exact .instr hi (by simpa [isVoid_eq_false] using hvoid)
  have hnodup : (p.instrsOf f).Nodup := by
    rw [hnext.instrs]
    exact nodup_instrIds _ _
  have hkeys := nodup_keys h (hnodup.filter _) (fun _ _ hv => by cases hv; rfl) hlocal
  rw [resultKeys_trees (forall₂_instrs hnext.trees)]
  refine ⟨hkeys, fun key hkey => List.lookup_eq_none_iff.mpr fun x hx => bne_iff_ne.mpr ?_⟩
  rintro rfl
  obtain ⟨j, hj, rfl⟩ := mem_paramEntries.mp hx
  obtain ⟨i, hi, heq⟩ := List.mem_map.mp hkey
  cases symbols_injective h.laid.listedOnce (h.names.locals f) (hlocal i hi) (.arg hj) heq

theorem bodyEntered_tree : BodyEntered (symbolsOf p) P t (paramEntries p f) (firstSlot p f)
    ((p.instrsOf f).map (relabelled p).instr) where
  labels := by
    have hkeys : t.blocks.map (fun b => (b.symbol (firstSlot p f)).key) =
        (p.func f).blocks.map fun b => ((spelling p f).symbolOf (.block b)).key :=
      map_eq_of_forall₂ hnext.trees fun b t ht => by rw [ht.symbol]
    rw [hkeys]
    exact nodup_keys h (h.laid.nodup_blocks f) (fun _ _ hv => by cases hv; rfl)
      fun b hb => .block hb
  results := canEnter_tree h hnext
  instrs := by
    have htrees := hnext.trees
    rw [hnext.blocks] at htrees
    have hplaced := forall₂_placed _ htrees
    rw [← hnext.blocks] at hplaced
    have hwith := (List.forall₂_and_left _ _).mpr
      ⟨fun i (hi : i ∈ p.instrsOf f) => hi, hplaced⟩
    rw [List.forall₂_map_right_iff]
    exact (hwith.imp fun i x hix => fills_tree h hnext hix.1 hix.2.1 hix.2.2).flip

theorem blockNodes_relabelled : blockNodes f (firstSlot p f) P.instrs.size t.blocks =
    (p.func f).blocks.map (relabelled p).block := by
  have hinstrs := hnext.instrs
  rw [Program.instrsOf] at hinstrs
  rw [blockNodes_trees hnext.trees hinstrs]
  refine List.map_congr_left fun b hb => ?_
  have hlt := h.laid.block_lt hb
  obtain ⟨s, hs, -⟩ := exists_symbol h.laid.listedOnce (.block hb)
  have hname : nameBack p (.block b) = ((spelling p f).symbolOf (.block b)).name? := by
    rw [nameBack_of_local h.laid hnext.defined (.block hb), slotName, Spelling.symbolOf, hs]
    rfl
  rw [relabelled, Program.block_relabel p _ hlt, hname, ← h.laid.blockParent f b hb,
    ← h.laid.liveBlock b hlt]

end

theorem withBody_nil {P : Program} (hf : f.index < P.functions.size)
    (hblocks : (P.func f).blocks = []) : withBody P f [] [] = P := by
  have hsame : P.functions.modify f.index ({ · with blocks := [] }) = P.functions := by
    refine Array.ext (by simp) fun j h₁ h₂ => ?_
    rw [Array.getElem_modify]
    split
    · rename_i heq
      subst heq
      have hat : P.functions[f.index].blocks = [] := by simpa [Program.func, hf] using hblocks
      exact congrArg (fun bs => { P.functions[f.index] with blocks := bs }) hat.symm
    · rfl
  have hnone : blockIds P.blocks.size 0 = [] := rfl
  rw [withBody, List.length_nil, hnone, hsame]
  simp

/-! ## 8. What a program is read as -/

/-- What a program is read as: local values have the names of their slots, and texts that are written
    as they stand are read with their escapes. -/
def reread (p : Program) : Program :=
  { relabelled p with
    name := p.sourceFile.getD "module"
    dataLayout := p.dataLayout.map asRead
    targetTriple := p.targetTriple.map asRead
    functions := (relabelled p).functions.map fun f =>
      { f with attributes := addAttributes (f.attributes.map attributeAsRead) } }

section

variable {p : Program}

theorem func_reread (f : FuncId) : (reread p).func f = { (relabelled p).func f with
    attributes := addAttributes ((p.func f).attributes.map attributeAsRead) } := by
  have hattributes : ((relabelled p).func f).attributes = (p.func f).attributes := by
    rw [relabelled, Program.func_relabel]
  rw [← hattributes]
  by_cases hf : f.index < (relabelled p).functions.size
  · simp [reread, Program.func, hf]
  · simp [reread, Program.func, hf, Func.tombstone, addAttributes]

@[simp] theorem func_reread_blocks (f : FuncId) : ((reread p).func f).blocks = (p.func f).blocks := by
  rw [func_reread]
  exact Program.func_relabel_blocks p _ f

@[simp] theorem instrsOf_reread (f : FuncId) : (reread p).instrsOf f = p.instrsOf f := by
  rw [Program.instrsOf, func_reread_blocks]
  exact List.flatMap_congr fun b _ => Program.block_relabel_instrs p _ b

theorem size_reread : (reread p).functions.size = p.functions.size := by
  simp [reread, relabelled, Program.relabel]

theorem Laid.reread (h : Laid p) : Laid (reread p) := by
  have hrelabelled : Laid (relabelled p) := h.relabel _
  have hsize : (Assembly.reread p).functions.size = (relabelled p).functions.size := by
    simp [Assembly.reread]
  have hblocks : ∀ f, ((Assembly.reread p).func f).blocks = ((relabelled p).func f).blocks := fun f => by
    rw [func_reread]
  refine ⟨?_, hrelabelled.instrs, fun f b hb => ?_, hrelabelled.instrParent, fun f hf => ?_,
    hrelabelled.liveBlock, hrelabelled.liveInstr⟩
  · simp only [hsize, hblocks]
    exact hrelabelled.blocks
  · exact hrelabelled.blockParent f b (hblocks f ▸ hb)
  · rw [func_reread]
    exact hrelabelled.liveFunc f (hsize ▸ hf)

end

/-! ## 9. The next function -/

section

variable {p : Program} (h : Printable p) {k : Nat} (hk : k < p.functions.size)
  {group : Option Nat} {t : FuncTree} (ht : IsFuncTree p ⟨k⟩ group t)
include h hk ht

omit h ht in
theorem func_enteredUpTo : k < (enteredUpTo (reread p) k).functions.size ∧
    ((enteredUpTo (reread p) k).func ⟨k⟩).blocks = [] := by
  have hsize : k < (enteredUpTo (reread p) k).functions.size := by
    simpa [enteredUpTo, size_reread] using hk
  refine ⟨hsize, ?_⟩
  rw [Program.func, Array.getD_eq_getD_getElem?, Array.getElem?_eq_getElem hsize]
  simp [enteredUpTo]

theorem isNext_tree (hdef : (p.func ⟨k⟩).isDeclaration = false) :
    IsNext p (enteredUpTo (reread p) k) ⟨k⟩ t := by
  have hsize : k < (reread p).functions.size := size_reread.symm ▸ hk
  have hblocks := h.laid.reread.blocks_at hsize
  have hinstrs := h.laid.reread.instrs_at hsize
  simp only [func_reread_blocks, instrsOf_reread] at hblocks hinstrs
  refine ⟨rfl, hdef, ?_, ?_, ht.blocks⟩
  · rw [← ht.blocks.length_eq]
    exact hblocks
  · rw [← (forall₂_instrs ht.blocks).length_eq]
    exact hinstrs

/-- The step: entering the next tree adds the next body. -/
theorem enterStep_tree :
    ProgramTree.enterStep (symbolsOf p) (enteredUpTo (reread p) k) (t, ⟨k⟩) =
      .ok (enteredUpTo (reread p) (k + 1)) := by
  have hsize : k < (reread p).functions.size := size_reread.symm ▸ hk
  obtain ⟨hf, hnone⟩ := func_enteredUpTo hk
  have hsucc := enteredUpTo_succ h.laid.reread hsize
  simp only [func_reread_blocks, instrsOf_reread] at hsucc
  have hempty : t.blocks.isEmpty = (p.func ⟨k⟩).isDeclaration := by
    rw [Bool.eq_iff_iff, Func.isDeclaration, List.isEmpty_iff_length_eq_zero,
      List.isEmpty_iff_length_eq_zero, ht.blocks.length_eq]
  cases hdef : (p.func ⟨k⟩).isDeclaration with
  | true =>
    have hblocks : (p.func ⟨k⟩).blocks = [] := List.isEmpty_iff.mp hdef
    rw [hblocks, Program.instrsOf, hblocks] at hsucc
    rw [ProgramTree.enterStep, if_pos (hempty.trans hdef)]
    exact congrArg Except.ok ((withBody_nil hf hnone).symm.trans hsucc.symm)
  | false =>
    have hnext := isNext_tree h hk ht hdef
    rw [ProgramTree.enterStep, if_neg (by simp [hempty, hdef])]
    refine (enterBody_iff hf hnone).mpr ⟨_, _, _, enterParams_tree h ht hdef,
      bodyEntered_tree h hnext, ?_⟩
    rw [blockNodes_relabelled h hnext]
    exact hsucc

end

end QirProfile.Assembly
