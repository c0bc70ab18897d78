import QirProfile.Proofs.Assembly.Rebuilding

/-!
# Printed programs are read again
-/

namespace QirProfile.Assembly

open Text

/-! ## 1. The tree -/

/-- The tree is that of the program's text. -/
structure IsTreeOf (p : Program) (groups : List (List Attribute)) (tree : ProgramTree) : Prop where
  sourceFile : tree.sourceFile = p.sourceFile
  dataLayout : tree.dataLayout = p.dataLayout.map asRead
  targetTriple : tree.targetTriple = p.targetTriple.map asRead
  namedTypes : tree.namedTypes = p.namedTypes
  globals : tree.globals = p.globalIds.map fun g => globalTree p (p.global g)
  functions : List.Forall₂ (fun id t => ∃ group, IsGroup groups (p.func id).attributes group ∧
    IsFuncTree p id group t) p.liveFunctions tree.functions
  groups : tree.groups = groups.zipIdx.map fun x => (x.2, x.1.map attributeAsRead)

section

variable {p : Program} (h : Printable p)
include h

theorem isTreeOf_print (hq : Quotable p) :
    ∃ groups tree, readTree (print p) = .ok tree ∧ IsTreeOf p groups tree := by
  obtain ⟨drafts, groups, tree, hdrafts, htree, hunlined⟩ := readTree_print h hq
  have hfunctions : tree.functions.map FuncTree.unlined = drafts.map FuncDraft.tree :=
    congrArg ProgramTree.functions hunlined
  have htrees := forall₂_of_map_eq (S := fun id t => ∃ group,
    IsGroup groups (p.func id).attributes group ∧ IsFuncTree p id group t) hdrafts hfunctions
    fun id d t hd ht => by
      obtain ⟨group, hgroup, hd⟩ := hd
      exact ⟨group, hgroup, isFuncTree_of_draft h hd ht⟩
  exact ⟨groups, tree, htree, congrArg ProgramTree.sourceFile hunlined,
    congrArg ProgramTree.dataLayout hunlined, congrArg ProgramTree.targetTriple hunlined,
    congrArg ProgramTree.namedTypes hunlined, congrArg ProgramTree.globals hunlined,
    htrees, congrArg ProgramTree.groups hunlined⟩

/-! ## 2. Declarations -/

variable {groups : List (List Attribute)} {tree : ProgramTree} (ht : IsTreeOf p groups tree)
include ht

theorem types_tree : tree.types =
    { reread p with functions := #[], blocks := #[], instrs := #[], globals := #[] } := by
  have hnodup : (([] ++ tree.namedTypes).map Prod.fst).Nodup := by
    rw [List.nil_append, ht.namedTypes]
    exact h.typeNames
  rw [ProgramTree.types, addNamedTypes_of_nodup _ hnodup, List.nil_append, ht.sourceFile,
    ht.dataLayout, ht.targetTriple, ht.namedTypes]
  rfl

theorem globalNames_tree : (tree.globals.map fun g => g.name.key) =
    p.globals.toList.map Global.name := by
  rw [ht.globals]
  refine List.ext_getElem (by simp [Program.globalIds]) fun k h₁ h₂ => ?_
  have hk : k < p.globals.size := by simpa using h₂
  have hkey := (globalSymbol_spec (h.names.globals _ (global_mem (g := ⟨k⟩) hk))).2.2
  simpa [Program.globalIds, globalTree, Program.global, hk] using hkey

theorem functionNames_tree : tree.functions.map FuncTree.name =
    p.functions.toList.map Func.name := by
  have hnames : tree.functions.map FuncTree.name = p.liveFunctions.map fun id => (p.func id).name :=
    map_eq_of_forall₂ ht.functions fun id t hid => by
      obtain ⟨group, -, hid⟩ := hid
      exact congrArg FuncTree.name hid.head
  rw [hnames, liveFunctions_of_writable h]
  refine List.ext_getElem (by simp) fun k h₁ h₂ => ?_
  have hk : k < p.functions.size := by simpa using h₂
  simp [Program.func, hk]

theorem symbols_tree : tree.symbols = symbolsOf p := by
  rw [ProgramTree.symbols, globalNames_tree h ht, functionNames_tree h ht, symbolsOf]

omit h in
theorem groupAttributes_tree {attributes : List Attribute} {group : Option Nat}
    (hgroup : IsGroup groups attributes group) (name : String) :
    groupAttributes tree.groups name group.toList = .ok (attributes.map attributeAsRead) := by
  cases group with
  | none =>
    rw [hgroup]
    rfl
  | some n =>
    have hmem : ∀ as, (n, as) ∈ tree.groups.reverse ↔
        (groups[n]?).map (·.map attributeAsRead) = some as := by
      intro as
      rw [ht.groups, List.mem_reverse, List.mem_map, Option.map_eq_some_iff]
      constructor
      · rintro ⟨⟨as', n'⟩, hx, heq⟩
        cases heq
        exact ⟨as', List.mk_mem_zipIdx_iff_getElem?.mp hx, rfl⟩
      · rintro ⟨as', hx, rfl⟩
        exact ⟨(as', n), List.mk_mem_zipIdx_iff_getElem?.mpr hx, rfl⟩
    have hread : (groups[n]?).map (·.map attributeAsRead) = some (attributes.map attributeAsRead) :=
      congrArg (Option.map (·.map attributeAsRead)) hgroup
    have hfound : tree.groups.reverse.lookup n = some (attributes.map attributeAsRead) :=
      lookup_of_unique ((hmem _).mpr hread) fun as has =>
        Option.some.inj (((hmem as).mp has).symm.trans hread)
    simp [groupAttributes, hfound]

omit ht in
theorem nameBack_param {f : FuncId} {param : Param} {i : Nat} (hi : i < (p.func f).params.length) :
    (paramTree p f (param, i)).2.bind Symbol.name? = nameBack p (.arg f i) := by
  simp only [paramTree, nameBack]
  split
  · rfl
  · obtain ⟨s, hs, -⟩ := exists_symbol h.laid.listedOnce (.arg hi)
    simp [slotName, Spelling.symbolOf, hs]

omit ht in
theorem params_tree (f : FuncId) :
    (((p.func f).params.zipIdx.map (paramTree p f)).map Prod.fst).zipIdx.map (fun x =>
      (⟨(((p.func f).params.zipIdx.map (paramTree p f)).map fun x =>
        x.2.bind Symbol.name?).getD x.2 none, x.1⟩ : Param)) =
      (p.func f).params.mapIdx fun i param => { param with name := nameBack p (.arg f i) } := by
  refine List.ext_getElem (by simp) fun i h₁ h₂ => ?_
  have hi : i < (p.func f).params.length := by simpa using h₂
  have hplace : (p.func f).params.zipIdx[i]? = some ((p.func f).params[i], i) := by
    simp [List.getElem?_eq_getElem hi]
  simp only [List.getElem_map, List.getElem_zipIdx, List.getElem_mapIdx, Nat.zero_add,
    List.getD_eq_getElem?_getD, List.getElem?_map, hplace, Option.map_some, Option.getD_some,
    nameBack_param h hi]
  rfl

theorem isFuncNode_tree {f : FuncId} (hf : f.index < p.functions.size) {group : Option Nat}
    {t : FuncTree} (hgroup : IsGroup groups (p.func f).attributes group)
    (hfunc : IsFuncTree p f group t) :
    IsFuncNode tree.groups t { (reread p).func f with blocks := [] } := by
  have hgroups : t.groups = group.toList := congrArg FuncTree.groups hfunc.head
  have hw := h.functions f hf
  refine ⟨(p.func f).attributes.map attributeAsRead,
    hgroups ▸ groupAttributes_tree ht hgroup t.name, ?_⟩
  have hhead : funcNode t ((p.func f).attributes.map attributeAsRead) =
      funcNode (headTree p f group) ((p.func f).attributes.map attributeAsRead) := by
    rw [← hfunc.head]
    rfl
  rw [hhead, func_reread, relabelled, Program.func_relabel]
  simp only [funcNode, headTree, Func.declare, List.nil_append, params_tree h f, hw.live]

theorem isInitialized_tree {g : GlobalId} (hg : g.index < p.globals.size) :
    IsInitialized tree.types tree.symbols (globalTree p (p.global g)) (p.global g) := by
  have hnode : { globalNode (globalTree p (p.global g)) with
      initializer := (p.global g).initializer } = p.global g := by
    simp [globalNode, globalTree, (globalSymbol_spec (h.names.globals _ (global_mem hg))).2.2]
  have hresolves : (globalSpelling p).Resolves ⟨tree.types, tree.symbols, none⟩ := by
    rw [symbols_tree h ht, types_tree h ht]
    exact
      { types := rfl
        instr := fun _ _ hs => by cases hs
        arg := fun _ _ _ hs => by cases hs
        func := fun _ hf _ => func_symbolsOf h _ _ hf
        global := fun _ hg _ => global_symbolsOf h _ _ hg }
  have hinitializer : (globalTree p (p.global g)).initializer =
      (p.global g).initializer.map (globalSpelling p).term := rfl
  unfold IsInitialized
  rw [hinitializer]
  cases hv : (p.global g).initializer with
  | none =>
    rw [hv] at hnode
    exact hnode.symm
  | some v =>
    have hprints := (h.globals g hg).initializer v hv
    rw [hv] at hnode
    exact ⟨v, Spelling.resolveTerm_term hresolves _ v hprints, hnode.symm⟩

theorem declares_tree : tree.Declares
    (p.liveFunctions.map fun f => { (reread p).func f with blocks := [] })
    p.globals.toList where
  globalNames := by
    rw [globalNames_tree h ht]
    exact h.globalNames
  functionNames := by
    rw [functionNames_tree h ht]
    exact h.functionNames
  apart := by
    rw [globalNames_tree h ht]
    intro t hmem
    have hname := List.mem_map_of_mem (f := FuncTree.name) hmem
    rw [functionNames_tree h ht] at hname
    exact names_apart h _ hname
  functions := by
    rw [List.forall₂_map_right_iff]
    have hlive := (List.forall₂_and_left _ _).mpr
      ⟨fun f (hf : f ∈ p.liveFunctions) => mem_liveFunctions h hf, ht.functions⟩
    refine (hlive.imp fun f t hft => ?_).flip
    obtain ⟨hf, group, hgroup, hfunc⟩ := hft
    exact isFuncNode_tree h ht hf hgroup hfunc
  globals := by
    rw [ht.globals, Program.toList_globals, List.forall₂_map_left_iff, List.forall₂_map_right_iff,
      List.forall₂_same]
    intro g hg
    obtain ⟨k, hk, rfl⟩ := List.mem_map.mp hg
    exact isInitialized_tree h ht (List.mem_range.mp hk)

/-! ## 3. The whole program -/

theorem declared_tree : tree.declared
    (p.liveFunctions.map fun f => { (reread p).func f with blocks := [] })
    p.globals.toList = enteredUpTo (reread p) 0 := by
  have hfuncs : (p.liveFunctions.map fun f => { (reread p).func f with blocks := [] }).toArray =
      (enteredUpTo (reread p) 0).functions := by
    rw [liveFunctions_of_writable h]
    refine Array.ext (by simp [enteredUpTo, size_reread]) fun k h₁ h₂ => ?_
    have hk : k < (reread p).functions.size := by simpa [enteredUpTo] using h₂
    simp [enteredUpTo, Program.func, hk]
  rw [ProgramTree.declared, types_tree h ht, hfuncs]
  simp [enteredUpTo, reread, relabelled, Program.relabel]

theorem resolve_tree : tree.resolve = .ok (reread p) := by
  refine resolve_iff.mpr ⟨_, _, declares_tree h ht, ?_⟩
  have hlen : tree.functions.length = p.functions.size := by
    rw [← ht.functions.length_eq, liveFunctions_of_writable h]
    simp
  have hbodies : (tree.functions.zip ((List.range' 0 tree.functions.length).map FuncId.mk)).foldlM
      (ProgramTree.enterStep (symbolsOf p)) (enteredUpTo (reread p) 0) =
        .ok (enteredUpTo (reread p) (0 + tree.functions.length)) := by
    refine foldlM_handles_ok (enteredUpTo (reread p)) 0 fun k t hk => ?_
    have hlt : k < p.functions.size := hlen ▸ (List.getElem?_eq_some_iff.mp hk).1
    have hid : p.liveFunctions[k]? = some ⟨k⟩ := by simp [liveFunctions_of_writable h, hlt]
    obtain ⟨t', ht', group, -, hfunc⟩ := forall₂_get ht.functions hid
    cases ht'.symm.trans hk
    rw [Nat.zero_add]
    exact enterStep_tree h hlt hfunc
  have hall : enteredUpTo (reread p) (reread p).functions.size = reread p :=
    enteredUpTo_size h.laid.reread
  rw [declared_tree h ht, symbols_tree h ht, hbodies, Nat.zero_add, hlen, ← size_reread, hall]

end

section

variable {p : Program}

theorem read_printed (h : Printable p) (hq : Quotable p) : read (print p) = .ok (reread p) := by
  obtain ⟨groups, tree, htree, ht⟩ := isTreeOf_print h hq
  rw [read, htree]
  exact resolve_tree h ht

theorem map_asRead_eq_iff {o : Option String} : o.map asRead = o ↔ ∀ s ∈ o, asRead s = s := by
  cases o <;> simp

theorem attributeAsRead_eq_iff {a : Attribute} :
    attributeAsRead a = a ↔ ∀ s ∈ attributeTexts a, asRead s = s := by
  cases a with
  | keyword word => exact ⟨nofun, fun _ => rfl⟩
  | pair key value => cases value <;> simp [attributeAsRead, attributeTexts]

theorem attributes_reread (h : Printable p) {f : FuncId}
    (htexts : ∀ a ∈ (p.func f).attributes, ∀ s ∈ attributeTexts a, asRead s = s) :
    ((reread p).func f).attributes = (p.func f).attributes := by
  have hread : (p.func f).attributes.map attributeAsRead = (p.func f).attributes :=
    (List.map_congr_left fun a ha => attributeAsRead_eq_iff.mpr (htexts a ha)).trans (List.map_id _)
  have hkeys : ((p.func f).attributes.map Attribute.key).Nodup := by
    rcases Nat.lt_or_ge f.index p.functions.size with hf | hf
    · exact (h.functions f hf).attributes
    · have hfunc : p.func f = Func.tombstone := by simp [Program.func, hf]
      rw [hfunc]
      exact List.nodup_nil
  rw [func_reread, hread, addAttributes_of_nodup hkeys]

theorem reread_eq (h : Printable p) (hname : p.name = p.sourceFile.getD "module")
    (htexts : ∀ s ∈ rawTexts p, asRead s = s) : reread p = relabelled p := by
  have hlayout := map_asRead_eq_iff.mpr fun s hs => htexts s (mem_rawTexts.mpr (.inl hs))
  have htriple := map_asRead_eq_iff.mpr fun s hs => htexts s (mem_rawTexts.mpr (.inr (.inl hs)))
  have hfunctions : (reread p).functions = (relabelled p).functions := by
    refine Array.ext (by simp [reread]) fun k h₁ h₂ => ?_
    have hattributes := attributes_reread h (f := ⟨k⟩) fun a ha s hs =>
      htexts s (mem_rawTexts_of_attribute ha hs)
    have hsame : ((relabelled p).func ⟨k⟩).attributes = (p.func ⟨k⟩).attributes := by
      rw [relabelled, Program.func_relabel]
    have hfunc : (reread p).func ⟨k⟩ = (relabelled p).func ⟨k⟩ := by
      rw [func_reread] at hattributes ⊢
      rw [show addAttributes _ = _ from hattributes, ← hsame]
    simpa [Program.func, h₁, h₂] using hfunc
  have hrest : reread p = { relabelled p with
      name := p.sourceFile.getD "module", dataLayout := p.dataLayout.map asRead
      targetTriple := p.targetTriple.map asRead, functions := (reread p).functions } := rfl
  rw [hrest, hfunctions, hlayout, htriple, ← hname]
  rfl

theorem read_print (h : Writable p) : read (print p) = .ok (relabelled p) := by
  rw [read_printed h.toPrintable h.quotable, reread_eq h.toPrintable h.name fun s hs =>
    asRead_plain (h.texts.plain s hs)]

end

/-! ## 4. Texts in their places -/

theorem addAttributes_length_from (attributes : List Attribute) : ∀ l : List Attribute,
    (attributes.foldl (fun l a => l.filter (·.key != a.key) ++ [a]) l).length ≤
        l.length + attributes.length ∧
      ((attributes.foldl (fun l a => l.filter (·.key != a.key) ++ [a]) l).length =
          l.length + attributes.length →
        attributes.foldl (fun l a => l.filter (·.key != a.key) ++ [a]) l = l ++ attributes) := by
  induction attributes with
  | nil => exact fun l => ⟨Nat.le_refl _, fun _ => (List.append_nil l).symm⟩
  | cons a rest ih =>
    intro l
    have hfilter := List.length_filter_le (·.key != a.key) l
    obtain ⟨hle, heq⟩ := ih (l.filter (·.key != a.key) ++ [a])
    rw [List.foldl_cons, List.length_cons]
    rw [List.length_append, List.length_singleton] at hle heq
    refine ⟨by omega, fun hlength => ?_⟩
    have hall : l.filter (·.key != a.key) = l :=
      List.filter_eq_self.mpr (List.length_filter_eq_length_iff.mp (by omega))
    rw [heq (by omega), hall, List.append_assoc, List.singleton_append]

theorem eq_of_addAttributes {attributes out : List Attribute} (h : addAttributes attributes = out)
    (hlength : out.length = attributes.length) : attributes = out := by
  have hall := (addAttributes_length_from attributes []).2 (by
    rw [List.length_nil, Nat.zero_add, ← hlength, ← h]
    rfl)
  rw [← h]
  exact hall.symm

/-- The programs have the same texts in the same places. -/
structure SameTexts (p q : Program) : Prop where
  sourceFile : q.sourceFile = p.sourceFile
  dataLayout : q.dataLayout = p.dataLayout
  targetTriple : q.targetTriple = p.targetTriple
  attributes : ∀ f, (q.func f).attributes = (p.func f).attributes

section

variable {p : Program}

theorem sameTexts_reread (h : Printable p) :
    SameTexts p (reread p) ↔ ∀ s ∈ rawTexts p, asRead s = s := by
  constructor
  · intro hsame s hs
    rcases mem_rawTexts.mp hs with hs | hs | ⟨f, a, ha, hs⟩
    · exact map_asRead_eq_iff.mp hsame.dataLayout s hs
    · exact map_asRead_eq_iff.mp hsame.targetTriple s hs
    · have hattributes := hsame.attributes f
      rw [func_reread] at hattributes
      have hall := eq_of_addAttributes hattributes (List.length_map _).symm
      have hattribute := List.map_inj_left.mp (hall.trans (List.map_id _).symm)
      exact attributeAsRead_eq_iff.mp (hattribute a ha) s hs
  · intro htexts
    exact ⟨rfl, map_asRead_eq_iff.mpr fun s hs => htexts s (mem_rawTexts.mpr (.inl hs)),
      map_asRead_eq_iff.mpr fun s hs => htexts s (mem_rawTexts.mpr (.inr (.inl hs))),
      fun f => attributes_reread h fun a ha s hs => htexts s (mem_rawTexts_of_attribute ha hs)⟩

/-- A printed program is read again, and its texts are the same just if none that is printed raw has
    something to unescape. -/
theorem texts_come_back (h : Printable p) (hq : Quotable p) : ∃ q, read (print p) = .ok q ∧
    q.sourceFile = p.sourceFile ∧ q.dataLayout = p.dataLayout.map asRead ∧
    q.targetTriple = p.targetTriple.map asRead ∧
    (SameTexts p q ↔ ∀ s ∈ rawTexts p, asRead s = s) :=
  ⟨reread p, read_printed h hq, rfl, rfl, rfl, sameTexts_reread h⟩

end

/-- A program with quotes and backslashes in the name of its source file. -/
def textProgram : Program where
  name := "a\"b\\22"
  sourceFile := some "a\"b\\22"
  dataLayout := some "e-m:e"
  targetTriple := some "wasm32\nx"
  functions := #[
    { name := "f", ret := .void, params := [], varArg := false
      attributes := [.pair "irreversible" none, .pair "depth" (some "a\\x1")] }]

theorem textProgram_comes_back : Printable textProgram ∧ Quotable textProgram ∧
    ∃ q, read (print textProgram) = .ok q ∧ SameTexts textProgram q := by
  have hblocks : ∀ f, (textProgram.func f).blocks = [] := by
    rintro ⟨_ | k⟩
    · rfl
    · simp [textProgram, Program.func, Func.tombstone]
  have hinstrs : ∀ f, textProgram.instrsOf f = [] := fun f => by
    rw [Program.instrsOf, hblocks, List.flatMap_nil]
  have hprintable : Printable textProgram :=
    { laid := ⟨by decide, by decide, fun f b hb => by simp [hblocks] at hb,
        fun b i hi => by simp [textProgram, Program.block, Block.tombstone] at hi,
        fun f hf => by
          obtain ⟨_ | k⟩ := f
          · rfl
          · exact absurd hf (by simp [textProgram]),
        fun b hb => absurd hb (Nat.not_lt_zero _), fun i hi => absurd hi (Nat.not_lt_zero _)⟩
      typeNames := by decide
      typeBodies := fun x hx => absurd hx List.not_mem_nil
      globalNames := by decide
      functionNames := by decide
      apart := by decide
      functions := fun f hf => by
        obtain ⟨_ | k⟩ := f
        · exact ⟨fun word h => (by cases h), True.intro, fun param h => absurd h List.not_mem_nil,
            fun word h => (by cases h), by decide, rfl⟩
        · exact absurd hf (by simp [textProgram])
      globals := fun g hg => absurd hg (Nat.not_lt_zero _)
      instrs := fun f id hid => by simp [hinstrs] at hid
      filled := fun f b hb => by simp [hblocks] at hb
      names := by decide +kernel
      bounded := ⟨by decide, by decide +kernel, fun i hi => absurd hi List.not_mem_nil,
        fun g hg => absurd hg List.not_mem_nil⟩ }
  have hquotable : Quotable textProgram := by
    refine ⟨by decide, ?_, by decide⟩
    simp [textProgram]
  obtain ⟨q, hread, -, -, -, hsame⟩ := texts_come_back hprintable hquotable
  exact ⟨hprintable, hquotable, q, hread, hsame.mpr (by decide +kernel)⟩

/-- A quote in a text that is written as it stands. -/
def quoteProgram : Program := { name := "module", targetTriple := some "a\"b" }

/-- An escape in such a text. -/
def escapeProgram : Program := { name := "module", dataLayout := some "\\41" }

/-- A name of two lines. -/
def lineProgram : Program := { name := "a\nb", sourceFile := some "a\nb" }

/-- A quote, a break of lines and an escape in texts that are printed raw. -/
theorem texts_changed : (read (print quoteProgram)).isOk = false ∧
    (read (print lineProgram)).isOk = false ∧
    ∃ q, read (print escapeProgram) = .ok q ∧ q.dataLayout = some "A" := by
  refine ⟨by decide +kernel, by decide +kernel, ?_⟩
  have hlayout : (read (print escapeProgram)).toOption.map Program.dataLayout = some (some "A") := by
    decide +kernel
  obtain ⟨q, hq, hA⟩ := Option.map_eq_some_iff.mp hlayout
  exact ⟨q, ok_of_toOption hq, hA⟩

end QirProfile.Assembly
