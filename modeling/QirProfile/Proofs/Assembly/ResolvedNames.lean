import QirProfile.Proofs.Assembly.Meaning
import QirProfile.Proofs.Assembly.Writable
import QirProfile.Proofs.Program.Shapes

/-!
# Names that were resolved

`Lowered` says what a program has of the tree that it was read as: every operand is the one that is
written, and a local symbol stands for a definition of the same body with the same key, before or
behind its use.
-/

namespace QirProfile.Assembly

open Value (mentions)

/-! ## 1. Blocks without a label -/

theorem entryOnly_readTree {source : String} {tree : ProgramTree}
    (h : readTree source = .ok tree) : ∀ t ∈ tree.functions, EntryOnly t.blocks :=
  (isProgram_readTree h).2

/-! ## 2. Who stands where -/

section

variable {p : Program} (h : Laid p)
include h

theorem Laid.mem_instrs_iff {b : BlockId} {i : InstrId} :
    i ∈ (p.block b).instrs ↔ (p.instr i).parent = some b := by
  refine ⟨h.instrParent b i, fun hparent => ?_⟩
  have hi : i.index < p.instrs.size := by
    by_contra hlt
    rw [Program.instr_of_le (Nat.le_of_not_lt hlt)] at hparent
    cases hparent
  have hmem : i ∈ instrIds 0 p.instrs.size := mem_instrIds.mpr ⟨i.index, hi, by simp⟩
  rw [← h.instrs] at hmem
  obtain ⟨k, -, hk⟩ := List.mem_flatMap.mp hmem
  obtain rfl : b = ⟨k⟩ := Option.some.inj (hparent.symm.trans (h.instrParent _ i hk))
  exact hk

theorem Laid.mem_blocks_iff {f : FuncId} {b : BlockId} :
    b ∈ (p.func f).blocks ↔ (p.block b).parent = some f := by
  refine ⟨h.blockParent f b, fun hparent => ?_⟩
  have hb : b.index < p.blocks.size := by
    by_contra hlt
    rw [Program.block_of_le (Nat.le_of_not_lt hlt)] at hparent
    cases hparent
  have hmem : b ∈ blockIds 0 p.blocks.size := mem_blockIds.mpr ⟨b.index, hb, by simp⟩
  rw [← h.blocks] at hmem
  obtain ⟨k, -, hk⟩ := List.mem_flatMap.mp hmem
  obtain rfl : f = ⟨k⟩ := Option.some.inj (hparent.symm.trans (h.blockParent _ b hk))
  exact hk

theorem Laid.sound (hnames : ∀ f g, (p.func f).erased = false → (p.func g).erased = false →
    (p.func f).name = (p.func g).name → f = g) : p.Sound where
  instrs b i := by
    rw [(h.nodup_instrs b).count]
    exact if_congr h.mem_instrs_iff rfl rfl
  blocks f b := by
    rw [(h.nodup_blocks f).count]
    exact if_congr h.mem_blocks_iff rfl rfl
  erasedInstr i herased := by
    have hle : p.instrs.size ≤ i.index := by
      by_contra hlt
      rw [h.liveInstr i (Nat.lt_of_not_le hlt)] at herased
      cases herased
    rw [Program.instr_of_le hle]
    rfl
  erasedBlock b herased := by
    have hle : p.blocks.size ≤ b.index := by
      by_contra hlt
      rw [h.liveBlock b (Nat.lt_of_not_le hlt)] at herased
      cases herased
    rw [Program.block_of_le hle]
    exact ⟨rfl, rfl⟩
  index := Program.index_iff.mpr hnames

end

/-! ## 3. What symbols stand for -/

namespace ProgramTree

/-- The globals and functions that a tree declares, under their names. -/
inductive DefinesGlobal (tree : ProgramTree) : String → Value → Prop
  | global {key : String} {k : Nat} {g : GlobalTree} (hg : tree.globals[k]? = some g)
    (hkey : g.name.key = key) : DefinesGlobal tree key (.global ⟨k⟩)
  | func {key : String} {k : Nat} {t : FuncTree} (ht : tree.functions[k]? = some t)
    (hkey : t.name = key) : DefinesGlobal tree key (.func ⟨k⟩)

theorem definesGlobal_of_mem {tree : ProgramTree} {x : String × Value} (hx : x ∈ tree.symbols) :
    tree.DefinesGlobal x.1 x.2 := by
  rcases List.mem_append.mp hx with hx | hx
  · obtain ⟨⟨name, k⟩, hk, rfl⟩ := List.mem_map.mp hx
    have hname := List.mem_zipIdx_iff_getElem?.mp hk
    rw [List.getElem?_map] at hname
    obtain ⟨g, hg, hkey⟩ := Option.map_eq_some_iff.mp hname
    exact .global hg hkey
  · obtain ⟨⟨name, k⟩, hk, rfl⟩ := List.mem_map.mp hx
    have hname := List.mem_zipIdx_iff_getElem?.mp hk
    rw [List.getElem?_map] at hname
    obtain ⟨t, ht, hkey⟩ := Option.map_eq_some_iff.mp hname
    exact .func ht hkey

/-- What the symbols in a body stand for: a local symbol for a definition of the body with its key, a
    global one for what the tree declares under its key. -/
def lexicon (tree : ProgramTree) (p : Program) (f : FuncId) (t : FuncTree) : Lexicon where
  locals s v := ∃ d, d.key = s.key ∧ t.DefinesValue p f d v
  globals s v := tree.DefinesGlobal s.key v
  labels s b := ∃ d, d.key = s.key ∧ t.DefinesBlock p f d b
  types := p

/-- What the symbols in an initial value stand for: there are no local ones. -/
def outerLexicon (tree : ProgramTree) (p : Program) : Lexicon where
  locals _ _ := False
  globals s v := tree.DefinesGlobal s.key v
  labels _ _ := False
  types := p

end ProgramTree

/-- The instruction has the operands that the tree of an operation asks for. -/
structure InstrTree.LowersTo (it : InstrTree) (L : Lexicon) (i : Instr) : Prop where
  operands : List.Forall₂ (Written.Means L) it.operation.written i.operands
  incoming : List.Forall₂ L.labels it.operation.incoming i.phiBlocks

/-- The global has the initial value that its tree asks for. -/
def GlobalTree.LowersTo (t : GlobalTree) (L : Lexicon) (g : Global) : Prop :=
  match t.initializer with
  | none => g.initializer = none
  | some term => ∃ v, g.initializer = some v ∧ term.Means L t.ty v

/-- What a program has of the tree that it was read as. -/
structure ProgramTree.Lowered (tree : ProgramTree) (p : Program) : Prop where
  /-- Nodes know where they stand. -/
  sound : p.Sound
  /-- The verifier reports at most problems of shape. -/
  shapes : ∀ text ∈ p.problems, ∃ f b, (p.func f).erased = false ∧ b ∈ (p.func f).blocks ∧
    p.ShapeProblem f b text
  /-- What an operand mentions at any depth is not erased and no local of another function. -/
  usable : ∀ f, ∀ id ∈ p.instrsOf f, ∀ v ∈ (p.instr id).operands, ∀ needle,
    mentions needle v = true → p.Usable f needle
  /-- A phi has a block of the function for every value. -/
  phis : ∀ f, ∀ id ∈ p.instrsOf f, ∀ blocks, (p.instr id).kind = .phi blocks →
    blocks.length = (p.instr id).operands.length ∧ ∀ b ∈ blocks, b ∈ (p.func f).blocks
  /-- Operands are those that are written, and symbols in them stand for definitions of their key. -/
  instrs : ∀ k t, tree.functions[k]? = some t →
    List.Forall₂ (fun it id => it.LowersTo (tree.lexicon p ⟨k⟩ t) (p.instr id)) t.instrs
      (p.instrsOf ⟨k⟩)
  /-- Initial values are those that are written. -/
  initials : List.Forall₂ (fun t g => t.LowersTo (tree.outerLexicon p) g) tree.globals
    p.globals.toList
  /-- Only an entry block takes its symbol by counting. -/
  entries : ∀ t ∈ tree.functions, EntryOnly t.blocks

/-! ## 4. Bodies -/

section

variable {tree : ProgramTree} {p : Program} {f : FuncId} {t : FuncTree} {scope : Scope}

theorem lookup_of_global {names : Names} {s : Symbol} {v : Value} (h : names.global s = .ok v) :
    names.symbols.lookup s.key = some v := by
  simp only [Names.global] at h
  split at h
  · rename_i w hw
    cases h
    exact hw
  · cases h

theorem BodyScoped.covers (h : BodyScoped p f t scope)
    (htypes : tree.types.namedTypes = p.namedTypes) :
    (tree.lexicon p f t).Covers ⟨tree.types, tree.symbols, some scope⟩ scope where
  locals s v hv := by
    simp only [Names.local] at hv
    split at hv
    · rename_i w hw
      cases hv
      exact h.values _ (mem_of_lookup hw)
    · cases hv
  globals s v hv := ProgramTree.definesGlobal_of_mem (mem_of_lookup (lookup_of_global hv))
  labels s b hb := by
    simp only [Scope.block] at hb
    split at hb
    · rename_i c hc
      cases hb
      exact h.blocks _ (mem_of_lookup hc)
    · cases hb
  types := htypes

theorem covers_outer (htypes : tree.types.namedTypes = p.namedTypes) :
    (tree.outerLexicon p).Covers ⟨tree.types, tree.symbols, none⟩ ⟨"", [], []⟩ where
  locals s v hv := by cases hv
  globals s v hv := ProgramTree.definesGlobal_of_mem (mem_of_lookup (lookup_of_global hv))
  labels s b hb := by cases hb
  types := htypes

theorem phiBlocks_fillNode (q : Program) (b : BlockId) (it : InstrTree)
    (out : List Value × List BlockId) (hnone : it.operation.incoming = [] → out.2 = []) :
    (fillNode (instrNode q b it) it.operation out).operands = out.1 ∧
      (fillNode (instrNode q b it) it.operation out).phiBlocks = out.2 := by
  obtain ⟨result, op, line⟩ := it
  cases op with
  | phi ty incoming => exact ⟨rfl, rfl⟩
  | _ => exact ⟨rfl, (hnone rfl).symm⟩

theorem lowersTo_of_fills {names : Names} {L : Lexicon} {q : Program} {b : BlockId}
    {it : InstrTree} {i : Instr} (h : L.Covers names scope) (hfills : Fills q names scope (b, it) i) :
    it.LowersTo L i := by
  obtain ⟨⟨vs, bs⟩, hop, rfl⟩ := hfills
  obtain ⟨hvalues, hblocks⟩ := means_of_operands h it.operation hop
  have hnone : it.operation.incoming = [] → bs = [] := by
    intro hnil
    rw [hnil] at hblocks
    exact List.forall₂_nil_left_iff.mp hblocks
  obtain ⟨hoperands, hincoming⟩ := phiBlocks_fillNode q b it (vs, bs) hnone
  exact ⟨hoperands ▸ hvalues, hincoming ▸ hblocks⟩

theorem length_phi {L : Lexicon} {q : Program} {names : Names} {b : BlockId} {it : InstrTree}
    {i : Instr} (h : it.LowersTo L i) (hfills : Fills q names scope (b, it) i)
    {blocks : List BlockId} (hkind : i.kind = .phi blocks) :
    blocks.length = i.operands.length := by
  obtain ⟨out, -, hi⟩ := hfills
  have hphi : i.phiBlocks = blocks := by simp [Instr.phiBlocks, hkind]
  have hlabels := h.incoming.length_eq
  have hvalues := h.operands.length_eq
  rw [hphi] at hlabels
  obtain ⟨result, op, line⟩ := it
  cases op with
  | phi ty incoming => rw [← hlabels, ← hvalues, Operation.length_incoming]
  | _ =>
    rw [hi] at hkind
    simp [fillNode, instrNode, Operation.kindAndTy] at hkind

end

/-! ## 5. Programs -/

section

variable {tree : ProgramTree} {p : Program} {fs : List Func} {gs : List Global}

theorem ProgramTree.usable_lexicon {k : Nat} {t : FuncTree} (hlaid : Laid p)
    (hsize : p.functions.size = tree.functions.length) :
    (tree.lexicon p ⟨k⟩ t).Usable p ⟨k⟩ where
  locals s v hv needle hn := by
    obtain ⟨d, -, hdefines⟩ := hv
    cases hdefines with
    | param hs =>
      obtain rfl := eq_of_beq (show (_ == needle) = true from hn)
      exact rfl
    | result hit hs hid =>
      obtain rfl := eq_of_beq (show (_ == needle) = true from hn)
      have hmem := List.mem_of_getElem? hid
      exact ⟨hlaid.liveInstr _ (hlaid.instrsOf_lt hmem), hlaid.functionOf hmem⟩
  globals s v hv needle hn := by
    cases hv with
    | global hg hkey =>
      obtain rfl := eq_of_beq (show (_ == needle) = true from hn)
      exact True.intro
    | func ht hkey =>
      obtain rfl := eq_of_beq (show (_ == needle) = true from hn)
      exact hlaid.liveFunc _ (hsize ▸ (List.getElem?_eq_some_iff.mp ht).1)
  labels s b hb := by
    obtain ⟨d, -, hs, hget⟩ := hb
    have hmem := List.mem_of_getElem? hget
    exact ⟨hlaid.liveBlock _ (hlaid.block_lt hmem), hlaid.blockParent _ _ hmem⟩

theorem IsRead.names (h : IsRead tree fs gs p) {f g : FuncId} (hf : (p.func f).erased = false)
    (hg : (p.func g).erased = false) (hname : (p.func f).name = (p.func g).name) : f = g := by
  obtain ⟨t, shared, ht, hfunc⟩ := h.func (Program.func_lt_of_live hf)
  obtain ⟨t', shared', ht', hfunc'⟩ := h.func (Program.func_lt_of_live hg)
  have hsame : t.name = t'.name := by
    rw [hfunc, hfunc'] at hname
    exact hname
  have hget : (tree.functions.map FuncTree.name)[f.index]? =
      (tree.functions.map FuncTree.name)[g.index]? := by
    rw [List.getElem?_map, List.getElem?_map, ht, ht', Option.map_some, Option.map_some, hsame]
  have hlt : f.index < (tree.functions.map FuncTree.name).length := by
    rw [List.length_map]
    exact (List.getElem?_eq_some_iff.mp ht).1
  have hindex := (List.getElem?_inj hlt h.declares.functionNames).mp hget
  cases f
  cases g
  cases hindex
  rfl

theorem IsRead.instrs_lower (h : IsRead tree fs gs p)
    (hreaches : tree.Reaches tree.functions.length p) {k : Nat} {t : FuncTree}
    (ht : tree.functions[k]? = some t) : List.Forall₂ (fun it id =>
      it.LowersTo (tree.lexicon p ⟨k⟩ t) (p.instr id) ∧
        ∀ blocks, (p.instr id).kind = .phi blocks →
          blocks.length = (p.instr id).operands.length) t.instrs (p.instrsOf ⟨k⟩) := by
  have hk : k < tree.functions.length := (List.getElem?_eq_some_iff.mp ht).1
  obtain ⟨scope, hbody, hscoped⟩ := hreaches.scoped k hk t ht
  refine (List.forall₂_map_right_iff.mp hbody.instrs).imp fun it id ⟨b, hfills⟩ => ?_
  have hlowers := lowersTo_of_fills (hscoped.covers h.namedTypes.symm) hfills
  exact ⟨hlowers, fun blocks => length_phi hlowers hfills⟩

theorem IsRead.lowered (h : IsRead tree fs gs p)
    (hreaches : tree.Reaches tree.functions.length p)
    (hentries : ∀ t ∈ tree.functions, EntryOnly t.blocks) : tree.Lowered p := by
  have hlaid := h.entered.laid
  -- The tree of an instruction.
  have hinstr : ∀ {f id}, id ∈ p.instrsOf f → ∃ (t : FuncTree) (it : InstrTree),
      tree.functions[f.index]? = some t ∧
      it.LowersTo (tree.lexicon p f t) (p.instr id) ∧
        ∀ blocks, (p.instr id).kind = .phi blocks →
          blocks.length = (p.instr id).operands.length := by
    intro f id hid
    obtain ⟨b, hb, -⟩ := List.mem_flatMap.mp hid
    obtain ⟨t, shared, ht, -⟩ := h.func (func_of_mem_blocks hb)
    obtain ⟨it, -, hlowers⟩ := forall₂_mem_right (h.instrs_lower hreaches ht) hid
    exact ⟨t, it, ht, hlowers⟩
  have husable : ∀ f, ∀ id ∈ p.instrsOf f, ∀ v ∈ (p.instr id).operands, ∀ needle,
      mentions needle v = true → p.Usable f needle := by
    intro f id hid v hv needle hn
    obtain ⟨t, it, -, hlowers, -⟩ := hinstr hid
    obtain ⟨x, -, hx⟩ := forall₂_mem_right hlowers.operands hv
    exact hx.usable (ProgramTree.usable_lexicon hlaid h.functions_size) hn
  have hphis : ∀ f, ∀ id ∈ p.instrsOf f, ∀ blocks, (p.instr id).kind = .phi blocks →
      blocks.length = (p.instr id).operands.length ∧ ∀ b ∈ blocks, b ∈ (p.func f).blocks := by
    intro f id hid blocks hkind
    obtain ⟨t, it, -, hlowers, hcount⟩ := hinstr hid
    refine ⟨hcount blocks hkind, fun b hb => ?_⟩
    have hphi : (p.instr id).phiBlocks = blocks := by simp [Instr.phiBlocks, hkind]
    obtain ⟨s, -, d, -, hs, hget⟩ := forall₂_mem_right hlowers.incoming (hphi ▸ hb)
    exact List.mem_of_getElem? hget
  have hrefers : ∀ f, (p.func f).erased = false → ∀ b ∈ (p.func f).blocks,
      ∀ id ∈ (p.block b).instrs, p.RefersWell f b id := by
    intro f _ b hb id hid
    have hmem : id ∈ p.instrsOf f := List.mem_flatMap.mpr ⟨b, hb, hid⟩
    refine ⟨hlaid.instrParent b id hid, fun blocks hkind => ?_, fun v hv => ?_⟩
    · obtain ⟨hcount, hblocks⟩ := hphis f id hmem blocks hkind
      exact ⟨hcount, fun c hc => ⟨hlaid.liveBlock c (hlaid.block_lt (hblocks c hc)),
        hlaid.blockParent f c (hblocks c hc)⟩⟩
    · rw [Program.operandProblem?_eq_none_iff]
      exact fun w hw => husable f id hmem v hv w (Value.mentions_iff v |>.mpr (.inl hw))
  refine ⟨hlaid.sound fun f g => h.names, fun text => Program.problems_shape hrefers, husable, hphis,
    fun k t ht => (h.instrs_lower hreaches ht).imp fun _ _ hboth => hboth.1, ?_, hentries⟩
  rw [h.globals]
  refine h.declares.globals.imp fun t g hinit => ?_
  unfold GlobalTree.LowersTo
  unfold IsInitialized at hinit
  cases hterm : t.initializer with
  | none =>
    rw [hterm] at hinit
    rw [hinit]
    rfl
  | some term =>
    rw [hterm] at hinit
    obtain ⟨v, hv, rfl⟩ := hinit
    exact ⟨v, rfl, means_of_resolve (covers_outer h.namedTypes.symm) t.ty term v hv⟩

end

/-- Whatever was read has the shape of its tree, its names resolved. -/
theorem read_lowered {source : String} {p : Program} (h : read source = .ok p) :
    ∃ tree, readTree source = .ok tree ∧ tree.Lowered p := by
  obtain ⟨tree, htree, hresolve⟩ := except_bind_ok.mp h
  have hreaches := ProgramTree.resolve_iff_reaches.mp hresolve
  obtain ⟨fs, gs, hdeclares, hentered⟩ := hreaches.entered
  exact ⟨tree, htree, IsRead.lowered ⟨isWritable_readTree htree, hdeclares, hentered⟩ hreaches
    (entryOnly_readTree htree)⟩

/-- A loop that counts for ever: its entry has no label and its second parameter no name, so that the
    phi names them by their numbers, and the phi uses a sum that is defined behind it. -/
def countText : String :=
  "define i64 @count(i64 %n, i64) \x7b\n" ++
  "  br label %loop\n\n" ++
  "loop:\n" ++
  "  %i = phi i64 [ %0, %1 ], [ %next, %loop ]\n" ++
  "  %next = add i64 %i, %n\n" ++
  "  br label %loop\n" ++
  "\x7d\n"

/-- The program of `countText`. -/
def counting : Program where
  name := "module"
  functions := #[
    { name := "count", ret := .int 64, params := [⟨some "n", .int 64⟩, ⟨none, .int 64⟩]
      varArg := false, blocks := [⟨0⟩, ⟨1⟩] }]
  blocks := #[
    { name := none, parent := some ⟨0⟩, instrs := [⟨0⟩] },
    { name := some "loop", parent := some ⟨0⟩, instrs := [⟨1⟩, ⟨2⟩, ⟨3⟩] }]
  instrs := #[
    ⟨.br, .void, [.block ⟨1⟩], none, some ⟨0⟩, false⟩,
    ⟨.phi [⟨0⟩, ⟨1⟩], .int 64, [.arg ⟨0⟩ 1, .instr ⟨2⟩], some "i", some ⟨1⟩, false⟩,
    ⟨.binary .add, .int 64, [.instr ⟨1⟩, .arg ⟨0⟩ 0], some "next", some ⟨1⟩, false⟩,
    ⟨.br, .void, [.block ⟨1⟩], none, some ⟨1⟩, false⟩]

theorem read_lowered_counting : read countText = .ok counting ∧
    ∃ tree, readTree countText = .ok tree ∧ tree.Lowered counting := by
  have h : read countText = .ok counting := by decide +kernel
  exact ⟨h, read_lowered h⟩

end QirProfile.Assembly
