import QirProfile.Proofs.Assembly.Declaring

/-!
# How a program that was read is laid out

Reading creates blocks function by function and instructions block by block. `Laid p` says so of a
program: the blocks of its functions, one function after the other, are all its blocks in order, and
the instructions of its blocks are all its instructions in order; every node knows its parent, and
nothing is erased.
-/

namespace QirProfile.Assembly

variable {b : BlockId} {k slot n index : Nat} {bb : Block} {i : InstrId} {p : Program}
  {f g : FuncId} {symbols : List (String × Value)} {t : FuncTree} {is : List Instr}
  {tree : ProgramTree}

/-! ## 1. Nodes of a program with a new body -/

section

variable {p : Program} {f g : FuncId} {bs : List Block} {is : List Instr}

theorem func_withBody_self (hf : f.index < p.functions.size) :
    (withBody p f bs is).func f =
      { p.func f with blocks := blockIds p.blocks.size bs.length } := by
  simp [withBody, Program.func, hf, Array.getElem_modify]

theorem func_withBody_ne (h : g ≠ f) : (withBody p f bs is).func g = p.func g := by
  have hne : f.index ≠ g.index := by
    intro heq
    apply h
    cases f
    cases g
    cases heq
    rfl
  simp [withBody, Program.func, Array.getElem?_modify, hne]

theorem block_withBody_old (h : b.index < p.blocks.size) :
    (withBody p f bs is).block b = p.block b := by
  simp [withBody, Program.block, h, Array.getElem?_append_left]

theorem block_withBody_new (h : bs[k]? = some bb) :
    (withBody p f bs is).block ⟨p.blocks.size + k⟩ = bb := by
  simp [withBody, Program.block, Array.getElem?_append_right, h]

theorem instr_withBody_old (h : i.index < p.instrs.size) :
    (withBody p f bs is).instr i = p.instr i := by
  simp [withBody, Program.instr, h, Array.getElem?_append_left]

theorem instr_withBody_new {i : Instr} (h : is[k]? = some i) :
    (withBody p f bs is).instr ⟨p.instrs.size + k⟩ = i := by
  simp [withBody, Program.instr, Array.getElem?_append_right, h]

theorem block_withBody_cases (f : FuncId) (is : List Instr) (h : b.index < p.blocks.size + bs.length) :
    (b.index < p.blocks.size ∧ (withBody p f bs is).block b = p.block b) ∨
      ∃ k bb, b = ⟨p.blocks.size + k⟩ ∧ bs[k]? = some bb ∧ (withBody p f bs is).block b = bb := by
  obtain ⟨n⟩ := b
  by_cases hold : n < p.blocks.size
  · exact .inl ⟨hold, block_withBody_old hold⟩
  · obtain ⟨k, rfl⟩ := Nat.exists_eq_add_of_le (Nat.le_of_not_lt hold)
    have hk : bs[k]? = some bs[k] := List.getElem?_eq_getElem (by simpa using h)
    exact .inr ⟨k, _, rfl, hk, block_withBody_new hk⟩

theorem instr_withBody_cases (f : FuncId) (bs : List Block) (h : i.index < p.instrs.size + is.length) :
    (i.index < p.instrs.size ∧ (withBody p f bs is).instr i = p.instr i) ∨
      ∃ k ii, i = ⟨p.instrs.size + k⟩ ∧ is[k]? = some ii ∧ (withBody p f bs is).instr i = ii := by
  obtain ⟨n⟩ := i
  by_cases hold : n < p.instrs.size
  · exact .inl ⟨hold, instr_withBody_old hold⟩
  · obtain ⟨k, rfl⟩ := Nat.exists_eq_add_of_le (Nat.le_of_not_lt hold)
    have hk : is[k]? = some is[k] := List.getElem?_eq_getElem (by simpa using h)
    exact .inr ⟨k, _, rfl, hk, instr_withBody_new hk⟩

end

theorem mem_blockIds {start count : Nat} :
    b ∈ blockIds start count ↔ ∃ k < count, b = ⟨start + k⟩ := by
  simp only [blockIds, List.mem_map, List.mem_range', Nat.one_mul]
  constructor
  · rintro ⟨_, ⟨k, hk, rfl⟩, rfl⟩
    exact ⟨k, hk, rfl⟩
  · rintro ⟨k, hk, rfl⟩
    exact ⟨_, ⟨k, hk, rfl⟩, rfl⟩

theorem mem_instrIds {start count : Nat} :
    i ∈ instrIds start count ↔ ∃ k < count, i = ⟨start + k⟩ := by
  simp only [instrIds, List.mem_map, List.mem_range', Nat.one_mul]
  constructor
  · rintro ⟨_, ⟨k, hk, rfl⟩, rfl⟩
    exact ⟨k, hk, rfl⟩
  · rintro ⟨k, hk, rfl⟩
    exact ⟨_, ⟨k, hk, rfl⟩, rfl⟩

theorem blockIds_append (start m n : Nat) :
    blockIds start m ++ blockIds (start + m) n = blockIds start (m + n) := by
  simp [blockIds, ← List.map_append]

theorem instrIds_append (start m n : Nat) :
    instrIds start m ++ instrIds (start + m) n = instrIds start (m + n) := by
  simp [instrIds, ← List.map_append]

/-! ## 2. Programs in order -/

/-- Blocks stand in functions and instructions in blocks in the order of their handles, every node
    knows its parent, and nothing is erased. -/
structure Laid (p : Program) : Prop where
  blocks : (List.range p.functions.size).flatMap (fun k => (p.func ⟨k⟩).blocks) =
    blockIds 0 p.blocks.size
  instrs : (List.range p.blocks.size).flatMap (fun k => (p.block ⟨k⟩).instrs) =
    instrIds 0 p.instrs.size
  blockParent : ∀ f, ∀ b ∈ (p.func f).blocks, (p.block b).parent = some f
  instrParent : ∀ b, ∀ i ∈ (p.block b).instrs, (p.instr i).parent = some b
  liveFunc : ∀ f : FuncId, f.index < p.functions.size → (p.func f).erased = false
  liveBlock : ∀ b : BlockId, b.index < p.blocks.size → (p.block b).erased = false
  liveInstr : ∀ i : InstrId, i.index < p.instrs.size → (p.instr i).erased = false

theorem func_of_mem_blocks (h : b ∈ (p.func f).blocks) :
    f.index < p.functions.size := by
  by_contra hlt
  simp [Program.func, hlt, Func.tombstone] at h

theorem block_of_mem_instrs (h : i ∈ (p.block b).instrs) : b.index < p.blocks.size := by
  by_contra hlt
  simp [Program.block, hlt, Block.tombstone] at h

namespace Laid

variable {p : Program} (h : Laid p)

include h

theorem block_lt (hb : b ∈ (p.func f).blocks) :
    b.index < p.blocks.size := by
  have hmem : b ∈ blockIds 0 p.blocks.size := by
    rw [← h.blocks]
    exact List.mem_flatMap.mpr ⟨f.index, List.mem_range.mpr (func_of_mem_blocks hb), hb⟩
  obtain ⟨k, hk, rfl⟩ := mem_blockIds.mp hmem
  simpa using hk

theorem instr_lt (hi : i ∈ (p.block b).instrs) :
    i.index < p.instrs.size := by
  have hmem : i ∈ instrIds 0 p.instrs.size := by
    rw [← h.instrs]
    exact List.mem_flatMap.mpr ⟨b.index, List.mem_range.mpr (block_of_mem_instrs hi), hi⟩
  obtain ⟨k, hk, rfl⟩ := mem_instrIds.mp hmem
  simpa using hk

theorem instrsOf_lt (hi : i ∈ p.instrsOf f) :
    i.index < p.instrs.size := by
  obtain ⟨b, -, hi⟩ := List.mem_flatMap.mp hi
  exact h.instr_lt hi

theorem functionOf (hi : i ∈ p.instrsOf f) :
    p.functionOf? i = some f := by
  obtain ⟨b, hb, hi⟩ := List.mem_flatMap.mp hi
  rw [Program.functionOf?, h.instrParent b i hi]
  exact h.blockParent f b hb

end Laid

/-! ## 3. The next body -/

theorem flatMap_blockNodes (f : FuncId) (slot : Nat) (bs : List BlockTree) (n : Nat) :
    (blockNodes f slot n bs).flatMap Block.instrs =
      instrIds n (bs.flatMap BlockTree.instrs).length := by
  induction bs generalizing n with
  | nil => rfl
  | cons b bs ih =>
    simp only [blockNodes, List.flatMap_cons, ih, List.length_append, instrIds_append]

theorem blockNodes_parent {bs : List BlockTree}
    (h : bb ∈ blockNodes f slot n bs) : bb.parent = some f ∧ bb.erased = false := by
  induction bs generalizing n with
  | nil => cases h
  | cons b bs ih =>
    rcases List.mem_cons.mp h with rfl | h
    · exact ⟨rfl, rfl⟩
    · exact ih h

theorem placed_of_mem {f : FuncId} {slot : Nat} {bs : List BlockTree} :
    ∀ (start : Nat) {n k : Nat} {bb : Block}, (blockNodes f slot n bs)[k]? = some bb → ∀ i ∈ bb.instrs,
      ∃ d t, i = ⟨n + d⟩ ∧ (placed start bs)[d]? = some (⟨start + k⟩, t) := by
  induction bs with
  | nil =>
    intro start n k bb h
    cases h
  | cons b bs ih =>
    intro start n k bb h i hi
    cases k with
    | zero =>
      cases h
      obtain ⟨d, hd, rfl⟩ := mem_instrIds.mp hi
      refine ⟨d, b.instrs[d], rfl, ?_⟩
      rw [placed, List.getElem?_append_left (by simpa using hd)]
      simp [hd]
    | succ k =>
      obtain ⟨d, t, rfl, hd⟩ := ih (start + 1) h i hi
      refine ⟨b.instrs.length + d, t, by congr 1; omega, ?_⟩
      rw [placed, List.getElem?_append_right (by simp)]
      simp only [List.length_map, Nat.add_sub_cancel_left, hd]
      congr 2
      congr 1
      omega

theorem fillNode_parent (i : Instr) (op : Operation) (out : List Value × List BlockId) :
    (fillNode i op out).parent = i.parent ∧ (fillNode i op out).erased = i.erased := by
  cases op <;> exact ⟨rfl, rfl⟩

theorem fills_parent {names : Names} {scope : Scope} {x : BlockId × InstrTree}
    {i : Instr} (h : Fills p names scope x i) : i.parent = some x.1 ∧ i.erased = false := by
  obtain ⟨out, -, rfl⟩ := h
  obtain ⟨hparent, herased⟩ := fillNode_parent (instrNode p x.1 x.2) x.2.operation out
  exact ⟨hparent, herased⟩

theorem forall₂_get {α β : Type} {R : α → β → Prop} {as : List α} {bs : List β}
    (h : List.Forall₂ R as bs) {a : α} (ha : as[k]? = some a) :
    ∃ b, bs[k]? = some b ∧ R a b := by
  induction h generalizing k with
  | nil => cases ha
  | @cons a' b' as bs hab hrest ih =>
    cases k with
    | zero =>
      cases ha
      exact ⟨b', rfl, hab⟩
    | succ k => exact ih ha

theorem flatMap_range_tail {α : Type} {g : Nat → List α} (hk : k ≤ n)
    (h : ∀ j, k ≤ j → g j = []) : (List.range n).flatMap g = (List.range k).flatMap g := by
  obtain ⟨d, rfl⟩ := Nat.exists_eq_add_of_le hk
  rw [List.range_add, List.flatMap_append]
  have : ((List.range d).map (k + ·)).flatMap g = [] := by
    rw [List.flatMap_eq_nil_iff]
    intro j hj
    obtain ⟨e, -, rfl⟩ := List.mem_map.mp hj
    exact h _ (Nat.le_add_right k e)
  rw [this, List.append_nil]

theorem flatMap_range_get {α β : Type} {l : List α} {g : Nat → List β} {h : α → List β}
    (hg : ∀ k a, l[k]? = some a → g k = h a) : (List.range l.length).flatMap g = l.flatMap h := by
  rw [List.flatMap_def, List.flatMap_def]
  congr 1
  apply List.ext_getElem
  · simp
  · intro k h₁ h₂
    simp only [List.getElem_map, List.getElem_range]
    exact hg k _ (List.getElem?_eq_getElem (by simpa using h₁))

theorem laid_withBody {params : List (String × Value)}
    (h : Laid p) (hf : f.index < p.functions.size)
    (hrest : ∀ j, f.index ≤ j → (p.func ⟨j⟩).blocks = [])
    (hbody : BodyEntered symbols p t params slot is) :
    Laid (withBody p f (blockNodes f slot p.instrs.size t.blocks) is) := by
  have hlen : is.length = (t.blocks.flatMap BlockTree.instrs).length := by
    rw [← hbody.instrs.length_eq, ← placed_snd p.blocks.size t.blocks, List.length_map]
  have hself : ((withBody p f (blockNodes f slot p.instrs.size t.blocks) is).func f).blocks =
      blockIds p.blocks.size t.blocks.length := by
    rw [func_withBody_self hf, length_blockNodes]
  have hfunc : ∀ g : FuncId, g ≠ f →
      (withBody p f (blockNodes f slot p.instrs.size t.blocks) is).func g = p.func g :=
    fun g hg => func_withBody_ne hg
  have hnblocks : (withBody p f (blockNodes f slot p.instrs.size t.blocks) is).blocks.size =
      p.blocks.size + (blockNodes f slot p.instrs.size t.blocks).length := by
    simp [withBody]
  have hninstrs : (withBody p f (blockNodes f slot p.instrs.size t.blocks) is).instrs.size =
      p.instrs.size + is.length := by
    simp [withBody]
  refine ⟨?_, ?_, ?_, ?_, ?_, ?_, ?_⟩
  · -- The new blocks come behind those of the functions before.
    have hsize : (withBody p f (blockNodes f slot p.instrs.size t.blocks) is).functions.size =
        p.functions.size := by
      simp [withBody]
    have hbefore : (List.range f.index).flatMap (fun k =>
        ((withBody p f (blockNodes f slot p.instrs.size t.blocks) is).func ⟨k⟩).blocks) =
          blockIds 0 p.blocks.size := by
      rw [← h.blocks, flatMap_range_tail (Nat.le_of_lt hf) hrest]
      apply List.flatMap_congr
      intro k hk
      rw [hfunc ⟨k⟩ (by rintro rfl; simp at hk)]
    rw [hsize, flatMap_range_tail (k := f.index + 1) hf, List.range_succ, List.flatMap_append,
      hbefore, List.flatMap_singleton, hself, hnblocks, length_blockNodes]
    · simpa using blockIds_append 0 p.blocks.size t.blocks.length
    · intro j hj
      have hne : (⟨j⟩ : FuncId) ≠ f := by
        rintro rfl
        exact absurd hj (Nat.not_succ_le_self j)
      rw [hfunc ⟨j⟩ hne]
      exact hrest j (by omega)
  · rw [hnblocks, hninstrs, List.range_add, List.flatMap_append]
    have hold : (List.range p.blocks.size).flatMap (fun k =>
        ((withBody p f (blockNodes f slot p.instrs.size t.blocks) is).block ⟨k⟩).instrs) =
          instrIds 0 p.instrs.size := by
      rw [← h.instrs]
      apply List.flatMap_congr
      intro k hk
      rw [block_withBody_old (List.mem_range.mp hk)]
    have hnew : ((List.range (blockNodes f slot p.instrs.size t.blocks).length).map
        (p.blocks.size + ·)).flatMap (fun k =>
          ((withBody p f (blockNodes f slot p.instrs.size t.blocks) is).block ⟨k⟩).instrs) =
        (blockNodes f slot p.instrs.size t.blocks).flatMap Block.instrs := by
      rw [List.flatMap_map]
      exact flatMap_range_get fun k bb hbb => by rw [block_withBody_new hbb]
    rw [hold, hnew, flatMap_blockNodes, hlen]
    simpa using instrIds_append 0 p.instrs.size (t.blocks.flatMap BlockTree.instrs).length
  · intro g b hb
    by_cases hg : g = f
    · subst hg
      rw [hself] at hb
      obtain ⟨k, hk, rfl⟩ := mem_blockIds.mp hb
      have hlt : k < (blockNodes g slot p.instrs.size t.blocks).length := by
        rw [length_blockNodes]
        exact hk
      have hget := List.getElem?_eq_getElem hlt
      rw [block_withBody_new hget]
      exact (blockNodes_parent (List.getElem_mem _)).1
    · rw [hfunc g hg] at hb
      rw [block_withBody_old (h.block_lt hb)]
      exact h.blockParent g b hb
  · intro b i hi
    have hb := block_of_mem_instrs hi
    rw [hnblocks] at hb
    rcases block_withBody_cases f is hb with ⟨-, heq⟩ | ⟨k, bb, rfl, hbb, heq⟩
    · rw [heq] at hi
      rw [instr_withBody_old (h.instr_lt hi)]
      exact h.instrParent b i hi
    · rw [heq] at hi
      obtain ⟨d, it, rfl, hd⟩ := placed_of_mem p.blocks.size hbb i hi
      obtain ⟨ii, hii, hfills⟩ := forall₂_get hbody.instrs hd
      rw [instr_withBody_new hii]
      exact (fills_parent hfills).1
  · intro g hg
    by_cases hgf : g = f
    · subst hgf
      rw [func_withBody_self hf]
      exact h.liveFunc g hf
    · rw [hfunc g hgf]
      exact h.liveFunc g (by simpa [withBody] using hg)
  · intro b hb
    rw [hnblocks] at hb
    rcases block_withBody_cases f is hb with ⟨hold, heq⟩ | ⟨k, bb, rfl, hbb, heq⟩
    · rw [heq]
      exact h.liveBlock b hold
    · rw [heq]
      exact (blockNodes_parent (List.mem_of_getElem? hbb)).2
  · intro i hi
    rw [hninstrs] at hi
    rcases instr_withBody_cases f (blockNodes f slot p.instrs.size t.blocks) hi with
      ⟨hold, heq⟩ | ⟨k, ii, rfl, hii, heq⟩
    · rw [heq]
      exact h.liveInstr i hold
    · rw [heq]
      have hk : k < (placed p.blocks.size t.blocks).length := by
        rw [hbody.instrs.length_eq]
        exact (List.getElem?_eq_some_iff.mp hii).1
      obtain ⟨jj, hjj, hfills⟩ := forall₂_get hbody.instrs (List.getElem?_eq_getElem hk)
      rw [hii] at hjj
      cases hjj
      exact (fills_parent hfills).2

/-! ## 4. Bodies in place -/

theorem instrsOf_withBody_self {bs : List BlockTree}
    (hf : f.index < p.functions.size) :
    (withBody p f (blockNodes f slot p.instrs.size bs) is).instrsOf f =
      instrIds p.instrs.size (bs.flatMap BlockTree.instrs).length := by
  rw [← flatMap_blockNodes f slot bs, Program.instrsOf, func_withBody_self hf, blockIds,
    List.flatMap_map, List.range'_eq_map_range, List.flatMap_map]
  exact flatMap_range_get fun k bb hbb => by rw [block_withBody_new hbb]

theorem instrsOf_withBody_ne (bs : List Block) (is : List Instr)
    (h : Laid p) (hg : g ≠ f) : (withBody p f bs is).instrsOf g = p.instrsOf g := by
  rw [Program.instrsOf, func_withBody_ne hg]
  apply List.flatMap_congr
  intro b hb
  rw [block_withBody_old (h.block_lt hb)]

/-- The instructions of a function are those of its tree, with their operands resolved in a scope
    that holds values and blocks of the function only. -/
structure BodyOf (symbols : List (String × Value)) (types p : Program) (f : FuncId) (t : FuncTree)
    (scope : Scope) : Prop where
  values : ∀ x ∈ scope.values, (∃ i < (p.func f).params.length, x.2 = .arg f i) ∨
    ∃ id ∈ p.instrsOf f, x.2 = .instr id
  blocks : ∀ x ∈ scope.blocks, x.2 ∈ (p.func f).blocks
  instrs : List.Forall₂ (fun it i => ∃ b, Fills types ⟨types, symbols, some scope⟩ scope (b, it) i)
    (t.blocks.flatMap BlockTree.instrs) ((p.instrsOf f).map p.instr)

theorem BodyOf.withBody {types : Program}
    {scope : Scope} (h : BodyOf symbols types p g t scope) (hlaid : Laid p)
    (hg : g ≠ f) (bs : List Block) (is : List Instr) :
    BodyOf symbols types (withBody p f bs is) g t scope := by
  have hfunc : (Assembly.withBody p f bs is).func g = p.func g := func_withBody_ne hg
  have hinstrs := instrsOf_withBody_ne bs is hlaid hg
  have hnodes : (p.instrsOf g).map (Assembly.withBody p f bs is).instr =
      (p.instrsOf g).map p.instr :=
    List.map_congr_left fun id hid => instr_withBody_old (hlaid.instrsOf_lt hid)
  refine ⟨?_, ?_, ?_⟩
  · rw [hfunc, hinstrs]
    exact h.values
  · rw [hfunc]
    exact h.blocks
  · rw [hinstrs, hnodes]
    exact h.instrs

/-- The number behind a symbol that was entered while this one was next. -/
def nextSlot (slot : Nat) : Symbol → Nat
  | .named _ => slot
  | .numbered n => n + 1

theorem enterParams_rest {next last : Nat} {key : String}
    {rest : List (Ty × Option Symbol)} {values : List (String × Value)} : ((do
      let (more, last) ← enterParams f (index + 1) next rest
      return (more ++ [(key, .arg f index)], last)) : Except ReadError _) = .ok (values, last) ↔
        ∃ more, enterParams f (index + 1) next rest = .ok (more, last) ∧
          values = more ++ [(key, .arg f index)] := by
  rw [except_bind_ok]
  constructor
  · rintro ⟨⟨more, last'⟩, hmore, hout⟩
    cases hout
    exact ⟨more, hmore, rfl⟩
  · rintro ⟨more, hmore, rfl⟩
    exact ⟨(more, last), hmore, rfl⟩

theorem enterParams_cons {param : Ty × Option Symbol}
    {rest : List (Ty × Option Symbol)} {out : List (String × Value) × Nat} :
    enterParams f index slot (param :: rest) = .ok out ↔
      (∀ n, param.2.getD (.numbered slot) = .numbered n → n + 1 < span 32) ∧
        ∃ more, enterParams f (index + 1) (nextSlot slot (param.2.getD (.numbered slot))) rest =
            .ok (more, out.2) ∧
          out.1 = more ++ [((param.2.getD (.numbered slot)).key, .arg f index)] := by
  obtain ⟨ty, symbol⟩ := param
  obtain ⟨values, last⟩ := out
  have hnumbered : ∀ n (x : Except ReadError (List (String × Value) × Nat)),
      (if n + 1 < span 32 then x else .error .slotOverflow) = .ok (values, last) ↔
        (∀ k, Symbol.numbered n = .numbered k → k + 1 < span 32) ∧ x = .ok (values, last) := by
    intro n x
    by_cases hn : n + 1 < span 32
    · simp [hn]
    · simp [hn]
  cases symbol with
  | none =>
    simp only [Option.getD_none]
    rw [← enterParams_rest, ← hnumbered]
    simp only [enterParams]
    split <;> rfl
  | some symbol =>
    cases symbol with
    | named name =>
      simp only [Option.getD_some, reduceCtorEq, false_implies, implies_true, true_and]
      exact enterParams_rest
    | numbered n =>
      simp only [Option.getD_some]
      rw [← enterParams_rest, ← hnumbered]
      simp only [enterParams]
      split <;> rfl

theorem enterParams_values {f : FuncId} {ps : List (Ty × Option Symbol)} :
    ∀ {index slot slot' : Nat} {values : List (String × Value)},
      enterParams f index slot ps = .ok (values, slot') →
      ∀ x ∈ values, ∃ i < index + ps.length, x.2 = .arg f i := by
  induction ps with
  | nil =>
    intro index slot slot' values h x hx
    cases h
    cases hx
  | cons param ps ih =>
    intro index slot slot' values h x hx
    obtain ⟨-, more, hrest, rfl⟩ := enterParams_cons.mp h
    rcases List.mem_append.mp hx with hx | hx
    · obtain ⟨i, hi, heq⟩ := ih hrest x hx
      exact ⟨i, by simp; omega, heq⟩
    · obtain rfl := List.mem_singleton.mp hx
      exact ⟨index, by simp, rfl⟩

theorem resultEntries_values {ts : List InstrTree} : ∀ {n : Nat}, ∀ x ∈ resultEntries n ts,
    ∃ id ∈ instrIds n ts.length, x.2 = .instr id := by
  induction ts with
  | nil =>
    intro n x hx
    cases hx
  | cons t ts ih =>
    intro n x hx
    rw [List.length_cons, instrIds_succ]
    rcases List.mem_append.mp hx with hx | hx
    · refine ⟨⟨n⟩, List.mem_cons_self, ?_⟩
      simp only [resultEntry, Option.mem_toList, Option.map_eq_some_iff] at hx
      obtain ⟨s, -, rfl⟩ := hx
      rfl
    · obtain ⟨id, hid, heq⟩ := ih x hx
      exact ⟨id, List.mem_cons_of_mem _ hid, heq⟩

theorem bodyOf_withBody {params : List (String × Value)} {types : Program}
    (hf : f.index < p.functions.size)
    (htypes : p.namedTypes = types.namedTypes) (hlen : (p.func f).params.length = t.params.length)
    (hparams : enterParams f 0 0 t.params = .ok (params, slot))
    (hbody : BodyEntered symbols p t params slot is) :
    BodyOf symbols types (withBody p f (blockNodes f slot p.instrs.size t.blocks) is) f t
      (bodyScope p t params slot) := by
  have hinstrs : (withBody p f (blockNodes f slot p.instrs.size t.blocks) is).instrsOf f =
      instrIds p.instrs.size (t.blocks.flatMap BlockTree.instrs).length :=
    instrsOf_withBody_self hf
  have hfunc : (withBody p f (blockNodes f slot p.instrs.size t.blocks) is).func f =
      { p.func f with
        blocks := blockIds p.blocks.size (blockNodes f slot p.instrs.size t.blocks).length } :=
    func_withBody_self hf
  have hcount : is.length = (t.blocks.flatMap BlockTree.instrs).length := by
    rw [← hbody.instrs.length_eq, ← placed_snd p.blocks.size t.blocks, List.length_map]
  refine ⟨?_, ?_, ?_⟩
  · intro x hx
    rcases List.mem_append.mp hx with hx | hx
    · obtain ⟨id, hid, heq⟩ := resultEntries_values x (List.mem_reverse.mp hx)
      exact .inr ⟨id, by rw [hinstrs]; exact hid, heq⟩
    · obtain ⟨i, hi, heq⟩ := enterParams_values hparams x hx
      refine .inl ⟨i, ?_, heq⟩
      rw [hfunc]
      simpa [hlen] using hi
  · rintro ⟨key, b⟩ hx
    rw [hfunc, length_blockNodes]
    exact (List.of_mem_zip (List.mem_reverse.mp hx)).2
  · rw [hinstrs, ← hcount, ← placed_snd p.blocks.size t.blocks, List.forall₂_map_left_iff]
    have hmap : (instrIds p.instrs.size is.length).map
        (withBody p f (blockNodes f slot p.instrs.size t.blocks) is).instr = is := by
      apply List.ext_getElem
      · simp [instrIds]
      · intro k h₁ h₂
        simp only [instrIds, List.getElem_map, List.getElem_range', Nat.one_mul]
        exact instr_withBody_new (List.getElem?_eq_getElem h₂)
    rw [hmap]
    refine hbody.instrs.imp fun x i hfills => ⟨x.1, ?_⟩
    obtain ⟨out, hout, rfl⟩ := hfills
    refine ⟨out, ?_, ?_⟩
    · rw [operands_congr symbols (some (bodyScope p t params slot)) htypes] at hout
      exact hout
    · rw [instrNode_congr htypes]

/-! ## 5. All bodies -/

theorem foldlM_handles {α σ ε ι : Type} {handle : Nat → ι} {step : σ → α × ι → Except ε σ}
    (I : Nat → σ → Prop) {xs : List α} : ∀ (start : Nat) {s s' : σ},
      (∀ k x s s', xs[k]? = some x → I (start + k) s →
        step s (x, handle (start + k)) = .ok s' → I (start + k + 1) s') →
      I start s →
      (xs.zip ((List.range' start xs.length).map handle)).foldlM step s = .ok s' →
      I (start + xs.length) s' := by
  induction xs with
  | nil =>
    intro start s s' _ hs h
    cases h
    exact hs
  | cons x xs ih =>
    intro start s s' hstep hs h
    have hnext : ∀ k, start + (k + 1) = start + 1 + k := by omega
    simp only [List.length_cons, List.range'_succ, List.map_cons, List.zip_cons_cons,
      List.foldlM_cons, except_bind_ok] at h
    obtain ⟨s₁, h₁, h₂⟩ := h
    rw [List.length_cons, hnext]
    refine ih (start + 1) ?_ (hstep 0 x s s₁ rfl hs h₁) h₂
    intro k y t t' hy
    rw [← hnext]
    exact hstep (k + 1) y t t' hy

theorem foldlM_handles_ok {α σ ε ι : Type} {handle : Nat → ι} {step : σ → α × ι → Except ε σ}
    (state : Nat → σ) {xs : List α} : ∀ (start : Nat),
      (∀ k x, xs[k]? = some x →
        step (state (start + k)) (x, handle (start + k)) = .ok (state (start + k + 1))) →
      (xs.zip ((List.range' start xs.length).map handle)).foldlM step (state start) =
        .ok (state (start + xs.length)) := by
  induction xs with
  | nil => exact fun _ _ => rfl
  | cons x xs ih =>
    intro start hstep
    have hrest := ih (start + 1) fun k y hy => by
      have hnext := hstep (k + 1) y (by simpa using hy)
      rwa [show start + (k + 1) = start + 1 + k by omega] at hnext
    have hfirst : step (state start) (x, handle start) = .ok (state (start + 1)) := hstep 0 x rfl
    rw [List.length_cons, List.range'_succ, List.map_cons, List.zip_cons_cons, List.foldlM_cons,
      hfirst, show start + (xs.length + 1) = start + 1 + xs.length by omega]
    exact hrest

/-- The program while bodies are entered: those of the functions below `k` are, the others are
    still declarations. -/
structure EnteredBelow (tree : ProgramTree) (fs : List Func) (gs : List Global) (k : Nat)
    (p : Program) : Prop where
  rest : p = { tree.declared fs gs with
    functions := p.functions, blocks := p.blocks, instrs := p.instrs }
  size : p.functions.size = fs.length
  nodes : ∀ (j : Nat) (fn : Func), fs[j]? = some fn →
    p.func ⟨j⟩ = { fn with blocks := (p.func ⟨j⟩).blocks }
  above : ∀ j, k ≤ j → (p.func ⟨j⟩).blocks = []
  laid : Laid p
  bodies : ∀ j < k, ∀ t, tree.functions[j]? = some t →
    ∃ scope, BodyOf tree.symbols tree.types p ⟨j⟩ t scope

theorem laid_declarations (hblocks : p.blocks = #[]) (hinstrs : p.instrs = #[])
    (hfuncs : ∀ f, (p.func f).blocks = []) (hlive : ∀ f : FuncId, f.index < p.functions.size →
      (p.func f).erased = false) : Laid p := by
  have hblock : ∀ b, p.block b = Block.tombstone := by
    intro b
    simp [Program.block, hblocks]
  refine ⟨?_, ?_, ?_, ?_, hlive, ?_, ?_⟩
  · simp [hfuncs, hblocks, blockIds]
  · simp [hblocks, hinstrs, instrIds]
  · intro f b hb
    rw [hfuncs] at hb
    cases hb
  · intro b i hi
    rw [hblock] at hi
    cases hi
  · intro b hb
    simp [hblocks] at hb
  · intro i hi
    simp [hinstrs] at hi

theorem funcNode_declares {groups : List (Nat × List Attribute)} {fn : Func}
    (h : IsFuncNode groups t fn) :
    fn.blocks = [] ∧ fn.erased = false ∧ fn.params.length = t.params.length := by
  obtain ⟨shared, -, rfl⟩ := h
  simp [funcNode, Func.declare]

section

variable {tree : ProgramTree} {fs : List Func} {gs : List Global}

theorem enteredBelow_zero (hfs : List.Forall₂ (IsFuncNode tree.groups) tree.functions fs) :
    EnteredBelow tree fs gs 0 (tree.declared fs gs) := by
  have hnodes : ∀ fn ∈ fs, fn.blocks = [] ∧ fn.erased = false := by
    intro fn hfn
    obtain ⟨k, hk⟩ := List.getElem?_of_mem hfn
    obtain ⟨t, -, ht⟩ := forall₂_get hfs.flip hk
    exact ⟨(funcNode_declares ht).1, (funcNode_declares ht).2.1⟩
  have hget : ∀ (j : Nat) (fn : Func), fs[j]? = some fn → (tree.declared fs gs).func ⟨j⟩ = fn := by
    intro j fn hfn
    simp [ProgramTree.declared, Program.func, hfn]
  have hblocks : ∀ f, ((tree.declared fs gs).func f).blocks = [] := by
    rintro ⟨j⟩
    cases hj : fs[j]? with
    | none => simp [ProgramTree.declared, Program.func, hj, Func.tombstone]
    | some fn =>
      rw [hget j fn hj]
      exact (hnodes fn (List.mem_of_getElem? hj)).1
  have htypes : tree.types.blocks = #[] ∧ tree.types.instrs = #[] := by
    rw [ProgramTree.types, addNamedTypes_nodes]
    exact ⟨rfl, rfl⟩
  refine ⟨rfl, by simp [ProgramTree.declared], ?_, fun j _ => hblocks ⟨j⟩, ?_, ?_⟩
  · intro j fn hfn
    rw [hget j fn hfn]
  · refine laid_declarations htypes.1 htypes.2 hblocks ?_
    rintro ⟨j⟩ hj
    have hlt : j < fs.length := by simpa [ProgramTree.declared] using hj
    rw [hget j _ (List.getElem?_eq_getElem hlt)]
    exact (hnodes _ (List.getElem_mem hlt)).2
  · intro j hj
    cases hj

theorem EnteredBelow.step (hfs : List.Forall₂ (IsFuncNode tree.groups) tree.functions fs)
    {q : Program} (ht : tree.functions[k]? = some t)
    (h : EnteredBelow tree fs gs k p) (hstep : ProgramTree.enterStep tree.symbols p (t, ⟨k⟩) = .ok q) :
    EnteredBelow tree fs gs (k + 1) q := by
  obtain ⟨fn, hfn, hnode⟩ := forall₂_get hfs ht
  have hlt : k < p.functions.size := by
    rw [h.size]
    exact (List.getElem?_eq_some_iff.mp hfn).1
  have hlen : (p.func ⟨k⟩).params.length = t.params.length := by
    rw [h.nodes k fn hfn]
    exact (funcNode_declares hnode).2.2
  have htypes : p.namedTypes = tree.types.namedTypes := by rw [h.rest]; rfl
  unfold ProgramTree.enterStep at hstep
  split at hstep
  case isTrue hempty =>
    -- A declaration: nothing happens.
    cases hstep
    have hblocks : t.blocks = [] := by simpa using hempty
    refine ⟨h.rest, h.size, h.nodes, fun j hj => h.above j (by omega), h.laid, ?_⟩
    intro j hj t' ht'
    rcases Nat.lt_succ_iff_lt_or_eq.mp hj with hj | rfl
    · exact h.bodies j hj t' ht'
    · rw [ht] at ht'
      cases ht'
      refine ⟨⟨"", [], []⟩, ?_, ?_, ?_⟩
      · simp
      · simp
      · simp [Program.instrsOf, h.above j (Nat.le_refl j), hblocks]
  case isFalse =>
    have hblocks := h.above k (Nat.le_refl k)
    obtain ⟨params, slot, is, hparams, hbody, rfl⟩ := (enterBody_iff hlt hblocks).mp hstep
    refine ⟨?_, ?_, ?_, ?_, laid_withBody h.laid hlt h.above hbody, ?_⟩
    · rw [withBody, h.rest]
    · simpa [withBody] using h.size
    · intro j fn' hfn'
      by_cases hjk : j = k
      · subst hjk
        rw [func_withBody_self hlt]
        rw [h.nodes j fn' hfn']
      · rw [func_withBody_ne (by simpa using hjk)]
        exact h.nodes j fn' hfn'
    · intro j hj
      rw [func_withBody_ne (by simp; omega)]
      exact h.above j (by omega)
    · intro j hj t' ht'
      rcases Nat.lt_succ_iff_lt_or_eq.mp hj with hj | rfl
      · obtain ⟨scope, hscope⟩ := h.bodies j hj t' ht'
        exact ⟨scope, hscope.withBody h.laid (by simp; omega) _ _⟩
      · rw [ht] at ht'
        cases ht'
        exact ⟨_, bodyOf_withBody hlt htypes hlen hparams hbody⟩

end

/-- A program that was read has all bodies of its tree. -/
theorem resolved {m : Program} (h : tree.resolve = .ok m) :
    ∃ fs gs, tree.Declares fs gs ∧ EnteredBelow tree fs gs tree.functions.length m := by
  obtain ⟨fs, gs, hdeclares, hfold⟩ := resolve_iff.mp h
  refine ⟨fs, gs, hdeclares, ?_⟩
  have := foldlM_handles (EnteredBelow tree fs gs) 0 (fun k t p q ht hp hstep => by
      rw [Nat.zero_add] at hp hstep ⊢
      exact hp.step hdeclares.functions ht hstep)
    (enteredBelow_zero hdeclares.functions) hfold
  rwa [Nat.zero_add] at this

end QirProfile.Assembly
