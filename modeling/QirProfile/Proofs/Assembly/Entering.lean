import Mathlib.Data.List.Forall2
import Mathlib.Data.List.Nodup
import QirProfile.Assembly.Resolve
import QirProfile.Proofs.Steps

/-!
# Function bodies as they are entered

`enterBody` enters blocks, then instructions, then operands, each by a loop over the program. Here
the loops are run once and for all. `Program.withBody` adds blocks and instructions at the end of a
program and makes the blocks the body of a function; `blockNodes` and `instrNode` are the nodes that
a tree asks for.
-/

namespace QirProfile.Assembly

variable {f : FuncId} {slot : Nat} {bs : List BlockTree} {p q : Program} {b : BlockId} {s : Entered}

deriving instance DecidableEq for Func, Block, Instr, Global, Program

/-! ## 1. Sequences and folds -/

section

variable {ε α β σ : Type}

theorem mapError_ok {ε' : Type} {x : Except ε α} {g : ε → ε'} {a : α} :
    x.mapError g = .ok a ↔ x = .ok a := by
  cases x with
  | error e => simp [Except.mapError]
  | ok b => simp [Except.mapError]

/-- Outcomes can be compared. -/
instance decidableEqExcept [DecidableEq ε] [DecidableEq α] : DecidableEq (Except ε α)
  | .ok a, .ok b => decidable_of_iff (a = b) (by simp)
  | .error e, .error e' => decidable_of_iff (e = e') (by simp)
  | .ok _, .error _ => isFalse nofun
  | .error _, .ok _ => isFalse nofun

theorem modify_append_cons (xs : Array α) (y : α) (ys : List α) (f : α → α) :
    (xs ++ (y :: ys).toArray).modify xs.size f = xs ++ (f y :: ys).toArray := by
  have hlist : ∀ l : List α, (l ++ y :: ys).modify l.length f = l ++ f y :: ys := by
    intro l
    induction l with
    | nil => rfl
    | cons x l ih => simp [ih]
  apply Array.ext'
  simpa using hlist xs.toList

theorem modify_push (xs : Array α) (y : α) (f : α → α) :
    (xs.push y).modify xs.size f = xs.push (f y) := by
  have := modify_append_cons xs y [] f
  simpa using this

end

/-! ## 2. Distinct keys -/

/-- The keys can be entered one by one: none is taken, and no two are the same. -/
def CanEnter {β : Type} (taken : List (String × β)) (keys : List String) : Prop :=
  keys.Nodup ∧ ∀ k ∈ keys, taken.lookup k = none

theorem canEnter_nil {β : Type} (taken : List (String × β)) : CanEnter taken [] :=
  ⟨List.nodup_nil, by simp⟩

theorem canEnter_cons {β : Type} {taken : List (String × β)} {k : String} {ks : List String}
    (b : β) : CanEnter taken (k :: ks) ↔ taken.lookup k = none ∧ CanEnter ((k, b) :: taken) ks := by
  constructor
  · rintro ⟨hnodup, hfree⟩
    obtain ⟨hk, hks⟩ := List.nodup_cons.mp hnodup
    refine ⟨hfree k List.mem_cons_self, hks, ?_⟩
    intro k' hk'
    have hne : (k' == k) = false := by
      rw [beq_eq_false_iff_ne]
      rintro rfl
      exact hk hk'
    rw [List.lookup_cons, hne]
    exact hfree k' (List.mem_cons_of_mem k hk')
  · rintro ⟨hk, hks, hfree⟩
    have hne : ∀ k' ∈ ks, k' ≠ k ∧ taken.lookup k' = none := by
      intro k' hk'
      have := hfree k' hk'
      rw [List.lookup_cons] at this
      split at this
      · cases this
      · rename_i hne
        exact ⟨beq_eq_false_iff_ne.mp hne, this⟩
    refine ⟨List.nodup_cons.mpr ⟨fun hmem => (hne k hmem).1 rfl, hks⟩, ?_⟩
    intro k' hk'
    rcases List.mem_cons.mp hk' with rfl | hk'
    · exact hk
    · exact (hne k' hk').2

/-! ## 3. Blocks -/

/-- The symbol of a block, where the parameters leave the number `slot`. -/
def BlockTree.symbol (slot : Nat) (b : BlockTree) : Symbol :=
  b.label.getD (.numbered slot)

/-- Handles of blocks in a row. -/
def blockIds (start count : Nat) : List BlockId := (List.range' start count).map BlockId.mk

/-- Handles of instructions in a row. -/
def instrIds (start count : Nat) : List InstrId := (List.range' start count).map InstrId.mk

/-- Adds blocks of these names, without instructions, to a function. -/
def addBlocks (f : FuncId) (names : List (Option String)) (p : Program) : Program :=
  { p with
    blocks := p.blocks ++ (names.map fun name => ({ name := name, parent := some f } : Block)).toArray
    functions := p.functions.modify f.index fun fn =>
      { fn with blocks := fn.blocks ++ blockIds p.blocks.size names.length } }

theorem addBlocks_nil (f : FuncId) (p : Program) : addBlocks f [] p = p := by
  have hid : (fun fn : Func => { fn with blocks := fn.blocks ++ blockIds p.blocks.size 0 }) = id := by
    funext fn
    simp [blockIds]
  have hmodify : p.functions.modify f.index id = p.functions := by
    apply Array.ext'
    simp
  simp only [addBlocks, List.map_nil, List.length_nil, hid, hmodify]
  simp

theorem addBlocks_cons (f : FuncId) (name : Option String) (names : List (Option String))
    (p : Program) :
    addBlocks f (name :: names) p = addBlocks f names (p.appendBlock f name).1 := by
  have hfun : ∀ fs : Array Func, (fs.modify f.index fun fn =>
      { fn with blocks := fn.blocks ++ [⟨p.blocks.size⟩] }).modify f.index (fun fn =>
        { fn with blocks := fn.blocks ++ blockIds (p.blocks.size + 1) names.length }) =
      fs.modify f.index fun fn =>
        { fn with blocks := fn.blocks ++ blockIds p.blocks.size (names.length + 1) } := by
    intro fs
    apply Array.ext'
    simp only [Array.toList_modify, List.modify_modify_eq]
    congr 1
    funext fn
    simp [blockIds, List.range'_succ]
  simp only [addBlocks, Program.appendBlock, Program.updateFunc, Array.size_push, hfun,
    List.length_cons, List.map_cons]
  congr 1
  simp

theorem enterBlocks_iff {f : FuncId} {slot : Nat} {bs : List BlockTree} :
    ∀ {p q : Program} {taken labels : List (String × BlockId)},
      enterBlocks f slot bs (p, taken) = .ok (q, labels) ↔
        CanEnter taken (bs.map fun b => (b.symbol slot).key) ∧
          q = addBlocks f (bs.map fun b => (b.symbol slot).name?) p ∧
          labels = ((bs.map fun b => (b.symbol slot).key).zip
            (blockIds p.blocks.size bs.length)).reverse ++ taken := by
  induction bs with
  | nil =>
    intro p q taken labels
    simp only [enterBlocks, List.map_nil, addBlocks_nil, canEnter_nil, true_and, List.zip_nil_left,
      List.reverse_nil, List.nil_append, Except.ok.injEq, Prod.mk.injEq]
    constructor
    · rintro ⟨rfl, rfl⟩
      exact ⟨rfl, rfl⟩
    · rintro ⟨rfl, rfl⟩
      exact ⟨rfl, rfl⟩
  | cons b bs ih =>
    intro p q taken labels
    have hsize : (p.appendBlock f (b.symbol slot).name?).1.blocks.size = p.blocks.size + 1 := by
      simp [Program.appendBlock, Program.updateFunc]
    rw [enterBlocks, List.map_cons, List.map_cons, addBlocks_cons,
      canEnter_cons (⟨p.blocks.size⟩ : BlockId)]
    change (if (taken.lookup (b.symbol slot).key).isSome = true then _ else
      enterBlocks f slot bs ((p.appendBlock f (b.symbol slot).name?).1,
        ((b.symbol slot).key, ⟨p.blocks.size⟩) :: taken)) = _ ↔ _
    cases htaken : taken.lookup (b.symbol slot).key with
    | some id => simp
    | none =>
      simp only [Option.isSome_none, Bool.false_eq_true, if_false, ih, hsize, true_and]
      simp [blockIds, List.range'_succ]

/-! ## 4. Instructions -/

/-- The node of an instruction before its operands are known. -/
def instrNode (p : Program) (b : BlockId) (t : InstrTree) : Instr where
  kind := (t.operation.kindAndTy p).1
  ty := (t.operation.kindAndTy p).2
  operands := []
  name := t.result.bind Symbol.name?
  parent := some b

/-- Adds an instruction at the end of a block. -/
def addInstr (b : BlockId) (i : Instr) (p : Program) : Program :=
  { p with
    instrs := p.instrs.push i
    blocks := p.blocks.modify b.index fun bb => { bb with instrs := bb.instrs ++ [⟨p.instrs.size⟩] } }

/-- What an instruction adds to the values in scope. -/
def resultEntry (id : InstrId) (t : InstrTree) : List (String × Value) :=
  (t.result.map fun s => (s.key, Value.instr id)).toList

/-- The state once an instruction is entered. -/
def Entered.add (s : Entered) (x : BlockId × InstrTree) : Entered :=
  ⟨addInstr x.1 (instrNode s.program x.1 x.2) s.program,
    resultEntry ⟨s.program.instrs.size⟩ x.2 ++ s.values,
    s.instrs ++ [(⟨s.program.instrs.size⟩, x.2)]⟩

/-- The block can take instructions. -/
def IsOpen (p : Program) (b : BlockId) : Prop := (p.block b).erased = false

/-- The key of a result, if there is one. -/
def resultKey (t : InstrTree) : List String := (t.result.map Symbol.key).toList

theorem createInstr_append (h : IsOpen p b) (kind : InstrKind) (ty : Ty)
    (name : Option String) :
    ((p.createInstr kind ty []).1.setInstrName ⟨p.instrs.size⟩ name).appendInstr b
        ⟨p.instrs.size⟩ =
      .ok (addInstr b ⟨kind, ty, [], name, some b, false⟩ p) := by
  have hnamed : (p.createInstr kind ty []).1.setInstrName ⟨p.instrs.size⟩ name =
      { p with instrs := p.instrs.push ⟨kind, ty, [], name, none, false⟩ } := by
    simp [Program.createInstr, Program.setInstrName, Program.updateInstr, modify_push]
  have hinstr : ({ p with instrs := p.instrs.push ⟨kind, ty, [], name, none, false⟩ } :
      Program).instr ⟨p.instrs.size⟩ = ⟨kind, ty, [], name, none, false⟩ := by
    simp [Program.instr]
  have hblock : ({ p with instrs := p.instrs.push ⟨kind, ty, [], name, none, false⟩ } :
      Program).block b = p.block b := rfl
  have hopen : (p.block b).erased = false := h
  rw [hnamed]
  simp only [Program.appendInstr, Program.requireDetached, Program.requireLive, hinstr, hblock,
    hopen, Program.updateBlock, Program.updateInstr, modify_push, addInstr]
  rfl

theorem enterInstr_iff {s' : Entered} {t : InstrTree} (h : IsOpen s.program b) :
    enterInstr b s t = .ok s' ↔ CanEnter s.values (resultKey t) ∧ s' = s.add (b, t) := by
  obtain ⟨result, op, line⟩ := t
  have hadd := createInstr_append h (op.kindAndTy s.program).1 (op.kindAndTy s.program).2
    (result.bind Symbol.name?)
  change ((((s.program.createInstr (op.kindAndTy s.program).1
    (op.kindAndTy s.program).2 []).1.setInstrName ⟨s.program.instrs.size⟩
      (result.bind Symbol.name?)).appendInstr b ⟨s.program.instrs.size⟩).mapError _ >>= _) = _ ↔ _
  rw [hadd, except_bind_ok]
  cases result with
  | none =>
    constructor
    · rintro ⟨q, hq, hrest⟩
      cases hq
      cases hrest
      exact ⟨canEnter_nil _, rfl⟩
    · rintro ⟨-, rfl⟩
      exact ⟨_, rfl, rfl⟩
  | some symbol =>
    simp only [resultKey, Option.map_some, Option.toList_some]
    rw [canEnter_cons (Value.instr ⟨s.program.instrs.size⟩)]
    simp only [canEnter_nil, and_true]
    constructor
    · rintro ⟨q, hq, hrest⟩
      cases hq
      cases hlook : s.values.lookup symbol.key with
      | some v =>
        simp only [hlook] at hrest
        cases hrest
      | none =>
        simp only [hlook] at hrest
        cases hrest
        exact ⟨rfl, rfl⟩
    · rintro ⟨hlook, rfl⟩
      refine ⟨_, rfl, ?_⟩
      simp only [hlook]
      rfl

/-- The instructions of blocks, each with the handle of its block; the first block has the handle
    `n`. -/
def placed : Nat → List BlockTree → List (BlockId × InstrTree)
  | _, [] => []
  | n, b :: bs => b.instrs.map (fun t => (⟨n⟩, t)) ++ placed (n + 1) bs

theorem placed_snd (n : Nat) (bs : List BlockTree) :
    (placed n bs).map Prod.snd = bs.flatMap BlockTree.instrs := by
  induction bs generalizing n with
  | nil => rfl
  | cons b bs ih => simp [placed, ih, Function.comp_def]

theorem foldlM_placed (n : Nat) (bs : List BlockTree) (s : Entered) :
    (bs.zip (blockIds n bs.length)).foldlM
        (fun s (x : BlockTree × BlockId) => x.1.instrs.foldlM (enterInstr x.2) s) s =
      (placed n bs).foldlM (fun s x => enterInstr x.1 s x.2) s := by
  induction bs generalizing n s with
  | nil => rfl
  | cons b bs ih =>
    have hids : blockIds n (b :: bs).length = ⟨n⟩ :: blockIds (n + 1) bs.length := by
      simp [blockIds, List.range'_succ]
    rw [hids, List.zip_cons_cons, List.foldlM_cons, placed, List.foldlM_append, List.foldlM_map]
    congr 1
    funext s'
    exact ih (n + 1) s'

theorem isOpen_add (h : IsOpen s.program b)
    (x : BlockId × InstrTree) : IsOpen (s.add x).program b := by
  unfold IsOpen at h ⊢
  simp only [Entered.add, addInstr, Program.block, Array.getD_eq_getD_getElem?,
    Array.getElem?_modify] at h ⊢
  split
  · cases hb : s.program.blocks[b.index]? with
    | none => simpa [hb] using h
    | some bb => simpa [hb] using h
  · exact h

theorem foldlM_enterInstr_iff {xs : List (BlockId × InstrTree)} :
    ∀ {s s' : Entered}, (∀ x ∈ xs, IsOpen s.program x.1) →
      (xs.foldlM (fun s x => enterInstr x.1 s x.2) s = .ok s' ↔
        CanEnter s.values (xs.flatMap fun x => resultKey x.2) ∧ s' = xs.foldl Entered.add s) := by
  induction xs with
  | nil =>
    intro s s' _
    constructor
    · intro h
      cases h
      exact ⟨canEnter_nil _, rfl⟩
    · rintro ⟨-, rfl⟩
      rfl
  | cons x xs ih =>
    intro s s' hopen
    have hx := hopen x List.mem_cons_self
    have htail : ∀ y ∈ xs, IsOpen (s.add x).program y.1 :=
      fun y hy => isOpen_add (hopen y (List.mem_cons_of_mem x hy)) x
    have hkeys : CanEnter s.values ((x :: xs).flatMap fun x => resultKey x.2) ↔
        CanEnter s.values (resultKey x.2) ∧
          CanEnter (s.add x).values (xs.flatMap fun x => resultKey x.2) := by
      simp only [List.flatMap_cons, Entered.add, resultKey, resultEntry]
      cases x.2.result with
      | none => simp [canEnter_nil]
      | some symbol =>
        simp only [Option.map_some, Option.toList_some, List.cons_append, List.nil_append]
        rw [canEnter_cons (Value.instr ⟨s.program.instrs.size⟩),
          canEnter_cons (Value.instr ⟨s.program.instrs.size⟩)]
        simp only [canEnter_nil, and_true]
    rw [List.foldlM_cons, except_bind_ok, hkeys, List.foldl_cons]
    constructor
    · rintro ⟨s₁, h₁, h⟩
      obtain ⟨hfree, rfl⟩ := (enterInstr_iff hx).mp h₁
      obtain ⟨hrest, rfl⟩ := (ih htail).mp h
      exact ⟨⟨hfree, hrest⟩, rfl⟩
    · rintro ⟨⟨hfree, hrest⟩, rfl⟩
      exact ⟨_, (enterInstr_iff hx).mpr ⟨hfree, rfl⟩, (ih htail).mpr ⟨hrest, rfl⟩⟩

/-! ## 5. What the instructions add -/

theorem gepTy_congr (h : p.namedTypes = q.namedTypes) (source : Ty)
    (indices : List Value) : p.gepTy source indices = q.gepTy source indices := by
  have hstep : ∀ ty index, p.stepInto? ty index = q.stepInto? ty index := by
    intro ty index
    cases ty <;> simp only [Program.stepInto?, Program.namedTypeBody?, h]
  have hwalk : ∀ (indices : List Value) (ty : Ty),
      p.walkIndices ty indices = q.walkIndices ty indices := by
    intro indices
    induction indices with
    | nil =>
      intro ty
      rfl
    | cons index indices ih =>
      intro ty
      simp only [Program.walkIndices, hstep, ih]
  simp only [Program.gepTy, hwalk]

theorem kindAndTy_congr (h : p.namedTypes = q.namedTypes) (op : Operation) :
    op.kindAndTy p = op.kindAndTy q := by
  cases op <;> simp only [Operation.kindAndTy, gepTy_congr h]

theorem instrNode_congr (h : p.namedTypes = q.namedTypes) :
    instrNode p = instrNode q := by
  funext b t
  simp only [instrNode, kindAndTy_congr h]

/-- The results in scope behind each other; the first instruction has the handle `n`. -/
def resultEntries : Nat → List InstrTree → List (String × Value)
  | _, [] => []
  | n, t :: ts => resultEntry ⟨n⟩ t ++ resultEntries (n + 1) ts

theorem instrIds_succ (n count : Nat) : instrIds n (count + 1) = ⟨n⟩ :: instrIds (n + 1) count := by
  simp [instrIds, List.range'_succ]

theorem foldl_add {xs : List (BlockId × InstrTree)} : ∀ (s : Entered),
    (xs.foldl Entered.add s).program =
        { s.program with
          instrs := s.program.instrs ++ (xs.map fun x => instrNode s.program x.1 x.2).toArray
          blocks := (xs.foldl Entered.add s).program.blocks } ∧
      (xs.foldl Entered.add s).values =
        (resultEntries s.program.instrs.size (xs.map Prod.snd)).reverse ++ s.values ∧
      (xs.foldl Entered.add s).instrs =
        s.instrs ++ (instrIds s.program.instrs.size xs.length).zip (xs.map Prod.snd) := by
  induction xs with
  | nil =>
    intro s
    simp [resultEntries]
  | cons x xs ih =>
    intro s
    obtain ⟨hprogram, hvalues, hinstrs⟩ := ih (s.add x)
    have hnode : instrNode (s.add x).program = instrNode s.program := instrNode_congr rfl
    have hsize : (s.add x).program.instrs.size = s.program.instrs.size + 1 := by
      simp [Entered.add, addInstr]
    have hentry : ∀ id t, (resultEntry id t).reverse = resultEntry id t := by
      intro id t
      unfold resultEntry
      cases t.result <;> rfl
    refine ⟨?_, ?_, ?_⟩
    · rw [List.foldl_cons]
      refine hprogram.trans ?_
      rw [hnode]
      simp [Entered.add, addInstr]
    · rw [List.foldl_cons, hvalues, hsize]
      simp [Entered.add, resultEntries, hentry]
    · rw [List.foldl_cons, hinstrs, hsize]
      simp [Entered.add, instrIds_succ]

/-- The blocks that a body asks for; the first instruction has the handle `n`. -/
def blockNodes (f : FuncId) (slot : Nat) : Nat → List BlockTree → List Block
  | _, [] => []
  | n, b :: bs =>
    { name := (b.symbol slot).name?, parent := some f, instrs := instrIds n b.instrs.length } ::
      blockNodes f slot (n + b.instrs.length) bs

theorem length_blockNodes (f : FuncId) (slot : Nat) (bs : List BlockTree) (n : Nat) :
    (blockNodes f slot n bs).length = bs.length := by
  induction bs generalizing n with
  | nil => rfl
  | cons b bs ih => simp [blockNodes, ih]

theorem foldl_add_block (b : BlockId) (ts : List InstrTree) : ∀ s : Entered,
    ((ts.map fun t => (b, t)).foldl Entered.add s).program.blocks =
      s.program.blocks.modify b.index fun bb =>
        { bb with instrs := bb.instrs ++ instrIds s.program.instrs.size ts.length } := by
  induction ts with
  | nil =>
    intro s
    apply Array.ext'
    have hid : (fun bb : Block => { bb with instrs := bb.instrs ++ [] }) = id := by
      funext bb
      simp
    simp only [List.map_nil, List.foldl_nil, List.length_nil, instrIds, List.range'_zero,
      Array.toList_modify]
    rw [hid, List.modify_id]
  | cons t ts ih =>
    intro s
    have hsize : (s.add (b, t)).program.instrs.size = s.program.instrs.size + 1 := by
      simp [Entered.add, addInstr]
    rw [List.map_cons, List.foldl_cons, ih, hsize]
    apply Array.ext'
    simp only [Entered.add, addInstr, Array.toList_modify, List.modify_modify_eq]
    congr 1
    funext bb
    simp [instrIds_succ]

theorem foldl_add_blocks (f : FuncId) (slot : Nat) :
    ∀ (s : Entered) (xs : Array Block),
      s.program.blocks = xs ++ (bs.map fun b =>
        ({ name := (b.symbol slot).name?, parent := some f } : Block)).toArray →
      ((placed xs.size bs).foldl Entered.add s).program.blocks =
        xs ++ (blockNodes f slot s.program.instrs.size bs).toArray := by
  induction bs with
  | nil =>
    intro s xs h
    simpa [placed, blockNodes] using h
  | cons b bs ih =>
    intro s xs h
    have hfirst := foldl_add_block ⟨xs.size⟩ b.instrs s
    rw [h, List.map_cons, modify_append_cons] at hfirst
    have hsize : ((b.instrs.map fun t => ((⟨xs.size⟩ : BlockId), t)).foldl Entered.add
        s).program.instrs.size = s.program.instrs.size + b.instrs.length := by
      rw [(foldl_add s).1]
      simp
    have hrest := ih ((b.instrs.map fun t => ((⟨xs.size⟩ : BlockId), t)).foldl Entered.add s)
      (xs.push ⟨(b.symbol slot).name?, some f,
        instrIds s.program.instrs.size b.instrs.length, false⟩)
      (by rw [hfirst]; simp)
    rw [hsize, Array.size_push] at hrest
    rw [placed, List.foldl_append, hrest]
    simp [blockNodes]

/-! ## 6. Operands -/

/-- The node of an instruction with its operands, and with the incoming blocks of a phi. -/
def fillNode (i : Instr) (op : Operation) (out : List Value × List BlockId) : Instr :=
  match op with
  | .phi _ _ => { i with operands := out.1, kind := .phi out.2 }
  | _ => { i with operands := out.1 }

/-- The instruction is the node of the tree with its operands. -/
def Fills (p : Program) (names : Names) (scope : Scope) (x : BlockId × InstrTree) (i : Instr) :
    Prop :=
  ∃ out, x.2.operation.operands names scope = .ok out ∧
    i = fillNode (instrNode p x.1 x.2) x.2.operation out

section

variable {p q : Program} {xs : Array Instr} {i : Instr} {is : List Instr}

theorem setOperands_at (hp : p.instrs = xs ++ (i :: is).toArray) (hi : i.erased = false)
    (operands : List Value) : p.setOperands ⟨xs.size⟩ operands =
      .ok { p with instrs := xs ++ ({ i with operands := operands } :: is).toArray } := by
  have hinstr : p.instr ⟨xs.size⟩ = i := by
    simp [Program.instr, hp]
  simp only [Program.setOperands, Program.requireLive, hinstr, hi, Program.updateInstr, hp,
    modify_append_cons]
  rfl

theorem setKind_at (hp : p.instrs = xs ++ (i :: is).toArray) (hi : i.erased = false)
    (kind : InstrKind) : p.setKind ⟨xs.size⟩ kind =
      .ok { p with instrs := xs ++ ({ i with kind := kind } :: is).toArray } := by
  have hinstr : p.instr ⟨xs.size⟩ = i := by
    simp [Program.instr, hp]
  simp only [Program.setKind, Program.requireLive, hinstr, hi, Program.updateInstr, hp,
    modify_append_cons]
  rfl

theorem fillInstr_iff {names : Names} {scope : Scope} {t : InstrTree}
    (hp : p.instrs = xs ++ (i :: is).toArray) (hi : i.erased = false) :
    fillInstr names scope p ⟨xs.size⟩ t = .ok q ↔ ∃ out, t.operation.operands names scope = .ok out ∧
      q = { p with instrs := xs ++ (fillNode i t.operation out :: is).toArray } := by
  have hkind : ∀ operands kind, Program.setKind
      { p with instrs := xs ++ ({ i with operands := operands } :: is).toArray } ⟨xs.size⟩ kind =
        .ok { p with instrs := xs ++ (⟨kind, i.ty, operands, i.name, i.parent, i.erased⟩ ::
          is).toArray } :=
    fun operands kind => setKind_at (i := { i with operands := operands }) rfl hi kind
  unfold fillInstr
  rw [except_bind_ok]
  constructor
  · rintro ⟨⟨operands, blocks⟩, hout, hrest⟩
    refine ⟨(operands, blocks), hout, ?_⟩
    simp only [setOperands_at hp hi] at hrest
    cases hop : t.operation with
    | phi ty incoming =>
      simp only [hop] at hrest
      change (Program.setKind _ _ _).mapError _ = _ at hrest
      rw [hkind] at hrest
      cases hrest
      rfl
    | _ =>
      simp only [hop] at hrest
      cases hrest
      rfl
  · rintro ⟨⟨operands, blocks⟩, hout, rfl⟩
    refine ⟨(operands, blocks), hout, ?_⟩
    simp only [setOperands_at hp hi]
    cases hop : t.operation with
    | phi ty incoming =>
      change (Program.setKind _ _ _).mapError _ = _
      rw [hkind]
      rfl
    | _ => rfl

end

theorem foldlM_fillInstr_iff (p₀ : Program) {names : Names} {scope : Scope}
    {ts : List (BlockId × InstrTree)} : ∀ {p q : Program} (xs : Array Instr),
      p.instrs = xs ++ (ts.map fun x => instrNode p₀ x.1 x.2).toArray →
      (((instrIds xs.size ts.length).zip (ts.map Prod.snd)).foldlM
          (fun p (x : InstrId × InstrTree) => fillInstr names scope p x.1 x.2) p = .ok q ↔
        ∃ is, List.Forall₂ (Fills p₀ names scope) ts is ∧
          q = { p with instrs := xs ++ is.toArray }) := by
  induction ts with
  | nil =>
    intro p q xs hp
    have hsame : ({ p with instrs := xs ++ ([] : List Instr).toArray } : Program) = p := by
      simp only [List.map_nil] at hp
      rw [← hp]
    constructor
    · intro h
      cases h
      exact ⟨[], .nil, hsame.symm⟩
    · rintro ⟨is, his, rfl⟩
      cases his
      rw [hsame]
      rfl
  | cons t ts ih =>
    intro p q xs hp
    rw [List.map_cons] at hp
    rw [List.length_cons, instrIds_succ, List.map_cons, List.zip_cons_cons, List.foldlM_cons,
      except_bind_ok]
    constructor
    · rintro ⟨p₁, h₁, h⟩
      obtain ⟨out, hout, rfl⟩ := (fillInstr_iff hp rfl).mp h₁
      have hnext : xs.size + 1 =
          (xs.push (fillNode (instrNode p₀ t.1 t.2) t.2.operation out)).size := by
        simp
      rw [hnext] at h
      obtain ⟨is, his, rfl⟩ := (ih _ (by simp)).mp h
      exact ⟨_, .cons ⟨out, hout, rfl⟩ his, by simp⟩
    · rintro ⟨is, his, rfl⟩
      cases his with
      | @cons _ i _ is hi his =>
        obtain ⟨out, hout, rfl⟩ := hi
        refine ⟨_, (fillInstr_iff hp rfl).mpr ⟨out, hout, rfl⟩, ?_⟩
        have hnext : xs.size + 1 =
            (xs.push (fillNode (instrNode p₀ t.1 t.2) t.2.operation out)).size := by
          simp
        rw [hnext]
        exact (ih _ (by simp)).mpr ⟨is, his, by simp⟩

/-! ## 7. Bodies -/

section

variable {p q : Program} (symbols : List (String × Value)) (scope : Option Scope)

mutual

theorem resolveTerm_congr (h : p.namedTypes = q.namedTypes) : (ty : Ty) → (t : Term) →
    resolveTerm ⟨p, symbols, scope⟩ ty t = resolveTerm ⟨q, symbols, scope⟩ ty t
  | _, .local _ | _, .global _ | _, .int _ | _, .bool _ | _, .float _ | _, .null | _, .undef
  | _, .zero | _, .bytes _ => by simp only [resolveTerm, Names.local, Names.global]
  | _, .array ts | _, .struct ts => by simp only [resolveTerm, resolveAll_congr h ts]
  | _, .cast _ v _ => by simp only [resolveTerm, resolveTyped_congr h v]
  | _, .gep _ _ base ts => by
    simp only [resolveTerm, resolveTyped_congr h base, resolveAll_congr h ts, gepTy_congr h]

theorem resolveTyped_congr (h : p.namedTypes = q.namedTypes) : (t : TypedTerm) →
    resolveTyped ⟨p, symbols, scope⟩ t = resolveTyped ⟨q, symbols, scope⟩ t
  | .mk ty t => by simp only [resolveTyped, resolveTerm_congr h ty t]

theorem resolveAll_congr (h : p.namedTypes = q.namedTypes) : (ts : List TypedTerm) →
    resolveAll ⟨p, symbols, scope⟩ ts = resolveAll ⟨q, symbols, scope⟩ ts
  | [] => by simp only [resolveAll]
  | t :: ts => by simp only [resolveAll, resolveTyped_congr h t, resolveAll_congr h ts]

end

theorem operands_congr (h : p.namedTypes = q.namedTypes) (body : Scope) (op : Operation) :
    op.operands ⟨p, symbols, scope⟩ body = op.operands ⟨q, symbols, scope⟩ body := by
  have hterm := resolveTerm_congr symbols scope h
  have htyped := resolveTyped_congr symbols scope h
  have hall := resolveAll_congr symbols scope h
  cases op with
  | ret value => cases value <;> simp only [Operation.operands, htyped]
  | _ => simp only [Operation.operands, hterm, htyped, hall]

end

theorem placed_block {n : Nat} {x : BlockId × InstrTree}
    (h : x ∈ placed n bs) : ∃ k < bs.length, x.1 = ⟨n + k⟩ := by
  induction bs generalizing n with
  | nil => cases h
  | cons b bs ih =>
    rcases List.mem_append.mp h with h | h
    · obtain ⟨t, -, rfl⟩ := List.mem_map.mp h
      exact ⟨0, by simp, rfl⟩
    · obtain ⟨k, hk, hx⟩ := ih h
      exact ⟨k + 1, by simpa using hk, by rw [hx, Nat.add_assoc, Nat.add_comm 1 k]⟩

theorem isOpen_addBlocks {names : List (Option String)} {k : Nat}
    (hk : k < names.length) : IsOpen (addBlocks f names p) ⟨p.blocks.size + k⟩ := by
  simp [IsOpen, addBlocks, Program.block, hk]

theorem func_addBlocks (hf : f.index < p.functions.size)
    (hblocks : (p.func f).blocks = []) (names : List (Option String)) :
    ((addBlocks f names p).func f).blocks = blockIds p.blocks.size names.length := by
  have hfunc : p.functions[f.index]? = some (p.func f) := by
    simp [Program.func, hf]
  simp only [addBlocks, Program.func, Array.getD_eq_getD_getElem?, Array.getElem?_modify, if_true]
  rw [hfunc]
  simp [hblocks]

/-- Adds blocks and instructions at the end of a program, and makes the blocks the body of a
    function. -/
def withBody (p : Program) (f : FuncId) (bs : List Block) (is : List Instr) : Program :=
  { p with
    functions := p.functions.modify f.index ({ · with blocks := blockIds p.blocks.size bs.length })
    blocks := p.blocks ++ bs.toArray
    instrs := p.instrs ++ is.toArray }

/-- The names in scope in a body that is entered next. -/
def bodyScope (p : Program) (t : FuncTree) (params : List (String × Value)) (slot : Nat) : Scope where
  function := "@" ++ t.name
  values := (resultEntries p.instrs.size (t.blocks.flatMap BlockTree.instrs)).reverse ++ params
  blocks := ((t.blocks.map fun b => (b.symbol slot).key).zip
    (blockIds p.blocks.size t.blocks.length)).reverse

/-- What entering a body asks for: distinct labels, distinct results, and operands that resolve. -/
structure BodyEntered (symbols : List (String × Value)) (p : Program) (t : FuncTree)
    (params : List (String × Value)) (slot : Nat) (is : List Instr) : Prop where
  labels : (t.blocks.map fun b => (b.symbol slot).key).Nodup
  results : CanEnter params ((t.blocks.flatMap BlockTree.instrs).flatMap resultKey)
  instrs : List.Forall₂ (Fills p ⟨p, symbols, some (bodyScope p t params slot)⟩
    (bodyScope p t params slot)) (placed p.blocks.size t.blocks) is

/-- The state once all instructions of a body are entered. -/
def enteredBody (p : Program) (f : FuncId) (t : FuncTree) (params : List (String × Value))
    (slot : Nat) : Entered :=
  (placed p.blocks.size t.blocks).foldl Entered.add
    ⟨addBlocks f (t.blocks.map fun b => (b.symbol slot).name?) p, params, []⟩

section

variable {symbols params : List (String × Value)} {p q : Program} {f : FuncId} {t : FuncTree}
  {slot : Nat}

theorem enteredBody_values : (enteredBody p f t params slot).values =
    (bodyScope p t params slot).values := by
  rw [enteredBody, (foldl_add _).2.1, placed_snd]
  rfl

theorem enteredBody_instrs : (enteredBody p f t params slot).instrs =
    (instrIds p.instrs.size (placed p.blocks.size t.blocks).length).zip
      ((placed p.blocks.size t.blocks).map Prod.snd) := by
  rw [enteredBody, (foldl_add _).2.2]
  rfl

theorem enteredBody_program (hf : f.index < p.functions.size) (hblocks : (p.func f).blocks = []) :
    (enteredBody p f t params slot).program =
      withBody p f (blockNodes f slot p.instrs.size t.blocks)
        ((placed p.blocks.size t.blocks).map fun x => instrNode p x.1 x.2) := by
  have hfunctions : p.functions.modify f.index (fun fn =>
      { fn with blocks := fn.blocks ++ blockIds p.blocks.size t.blocks.length }) =
      p.functions.modify f.index ({ · with blocks := blockIds p.blocks.size t.blocks.length }) := by
    have hfunc : p.functions[f.index]? = some (p.func f) := by
      simp [Program.func, hf]
    apply Array.ext_getElem?
    intro k
    simp only [Array.getElem?_modify]
    split
    · rename_i hk
      rw [← hk, hfunc]
      simp [hblocks]
    · rfl
  have hnode : instrNode (addBlocks f (t.blocks.map fun b => (b.symbol slot).name?) p) =
      instrNode p := instrNode_congr rfl
  rw [enteredBody, (foldl_add _).1, foldl_add_blocks f slot _ p.blocks
    (by simp [addBlocks, Function.comp_def]), hnode]
  simp only [addBlocks, withBody, List.length_map, hfunctions, length_blockNodes]

theorem isOpen_placed : ∀ x ∈ placed p.blocks.size t.blocks,
    IsOpen (addBlocks f (t.blocks.map fun b => (b.symbol slot).name?) p) x.1 := by
  intro x hx
  obtain ⟨k, hk, hid⟩ := placed_block hx
  rw [hid]
  exact isOpen_addBlocks (by simpa using hk)

theorem resultKey_placed (n : Nat) (bs : List BlockTree) :
    ((placed n bs).flatMap fun x => resultKey x.2) =
      (bs.flatMap BlockTree.instrs).flatMap resultKey := by
  rw [← placed_snd n bs, List.flatMap_map]

theorem enterInstrs_eq (hf : f.index < p.functions.size) (hblocks : (p.func f).blocks = []) :
    (t.blocks.zip ((addBlocks f (t.blocks.map fun b => (b.symbol slot).name?) p).func
        f).blocks).foldlM (fun s (x : BlockTree × BlockId) => x.1.instrs.foldlM (enterInstr x.2) s)
      (⟨addBlocks f (t.blocks.map fun b => (b.symbol slot).name?) p, params, []⟩ : Entered) =
    (placed p.blocks.size t.blocks).foldlM (fun s x => enterInstr x.1 s x.2)
      ⟨addBlocks f (t.blocks.map fun b => (b.symbol slot).name?) p, params, []⟩ := by
  rw [func_addBlocks hf hblocks, List.length_map, foldlM_placed]

theorem enterInstrs_iff (hf : f.index < p.functions.size) (hblocks : (p.func f).blocks = [])
    :
    (t.blocks.zip ((addBlocks f (t.blocks.map fun b => (b.symbol slot).name?) p).func
        f).blocks).foldlM (fun s (x : BlockTree × BlockId) => x.1.instrs.foldlM (enterInstr x.2) s)
      (⟨addBlocks f (t.blocks.map fun b => (b.symbol slot).name?) p, params, []⟩ : Entered) = .ok s ↔
    CanEnter params ((t.blocks.flatMap BlockTree.instrs).flatMap resultKey) ∧
      s = enteredBody p f t params slot := by
  have hopen : ∀ x ∈ placed p.blocks.size t.blocks,
      IsOpen (addBlocks f (t.blocks.map fun b => (b.symbol slot).name?) p) x.1 := isOpen_placed
  rw [enterInstrs_eq hf hblocks, foldlM_enterInstr_iff hopen, resultKey_placed]
  rfl

theorem fillInstrs_iff (hf : f.index < p.functions.size) (hblocks : (p.func f).blocks = [])
    (scope : Scope) :
    (enteredBody p f t params slot).instrs.foldlM (fun q (x : InstrId × InstrTree) =>
        fillInstr ⟨(enteredBody p f t params slot).program, symbols, some scope⟩ scope q x.1 x.2)
      (enteredBody p f t params slot).program = .ok q ↔
    ∃ is, List.Forall₂ (Fills p ⟨p, symbols, some scope⟩ scope) (placed p.blocks.size t.blocks) is ∧
      q = withBody p f (blockNodes f slot p.instrs.size t.blocks) is := by
  have hprogram : (enteredBody p f t params slot).program =
      withBody p f (blockNodes f slot p.instrs.size t.blocks)
        ((placed p.blocks.size t.blocks).map fun x => instrNode p x.1 x.2) :=
    enteredBody_program hf hblocks
  have hnames : Fills p ⟨(enteredBody p f t params slot).program, symbols, some scope⟩ scope =
      Fills p ⟨p, symbols, some scope⟩ scope := by
    have htypes : (enteredBody p f t params slot).program.namedTypes = p.namedTypes := by
      rw [hprogram]
      rfl
    funext x i
    simp only [Fills, operands_congr symbols (some scope) htypes]
  rw [enteredBody_instrs, foldlM_fillInstr_iff p p.instrs (by rw [hprogram]; rfl), hnames,
    hprogram]
  rfl

/-- Entering a body, without the loops. -/
theorem enterBody_iff (hf : f.index < p.functions.size) (hblocks : (p.func f).blocks = []) :
    enterBody symbols p f t = .ok q ↔ ∃ params slot is,
      enterParams f 0 0 t.params = .ok (params, slot) ∧ BodyEntered symbols p t params slot is ∧
        q = withBody p f (blockNodes f slot p.instrs.size t.blocks) is := by
  unfold enterBody
  simp only [except_bind_ok]
  constructor
  · rintro ⟨⟨params, slot⟩, hparams, ⟨p₁, labels⟩, hlabels, s, hs, hrest⟩
    obtain ⟨hnodup, rfl, rfl⟩ := enterBlocks_iff.mp hlabels
    obtain ⟨hresults, rfl⟩ := (enterInstrs_iff hf hblocks).mp hs
    obtain ⟨is, his, rfl⟩ := (fillInstrs_iff hf hblocks _).mp hrest
    rw [enteredBody_values, List.append_nil] at his
    exact ⟨params, slot, is, hparams, ⟨hnodup.1, hresults, his⟩, rfl⟩
  · rintro ⟨params, slot, is, hparams, ⟨hnodup, hresults, his⟩, rfl⟩
    refine ⟨(params, slot), hparams, (_, _), enterBlocks_iff.mpr ⟨⟨hnodup, by simp⟩, rfl, rfl⟩,
      _, (enterInstrs_iff hf hblocks).mpr ⟨hresults, rfl⟩, ?_⟩
    refine (fillInstrs_iff hf hblocks _).mpr ⟨is, ?_, rfl⟩
    rw [enteredBody_values, List.append_nil]
    exact his

end

end QirProfile.Assembly
