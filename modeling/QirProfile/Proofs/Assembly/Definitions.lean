import QirProfile.Proofs.Assembly.Layout

/-!
# What a body defines

Once the declarations of a tree are entered, the bodies follow one by one. `Reaches k p` says that
`p` is the program once the first `k` functions have their bodies: every tree whose declarations can
be entered passes through such programs, up to the last function or up to the first body that is
refused.
-/

namespace QirProfile.Assembly

/-! ## 1. How far a tree is entered -/

namespace ProgramTree

/-- The programs on the way: the declarations, and then one body after the other. -/
inductive Reaches (tree : ProgramTree) : Nat → Program → Prop
  | start {fs : List Func} {gs : List Global} (h : tree.Declares fs gs) :
    Reaches tree 0 (tree.declared fs gs)
  | next {k : Nat} {p q : Program} {t : FuncTree} (h : Reaches tree k p)
    (ht : tree.functions[k]? = some t) (hstep : enterStep tree.symbols p (t, ⟨k⟩) = .ok q) :
    Reaches tree (k + 1) q

/-- Entering the functions from the one with the handle `k` on. -/
def enterFrom (tree : ProgramTree) (k : Nat) (p : Program) : Except ReadError Program :=
  ((tree.functions.drop k).zip ((List.range' k (tree.functions.length - k)).map FuncId.mk)).foldlM
    (enterStep tree.symbols) p

variable {tree : ProgramTree} {k : Nat} {p : Program} {t : FuncTree}

theorem enterFrom_of_le (hk : tree.functions.length ≤ k) (p : Program) :
    tree.enterFrom k p = .ok p := by
  rw [enterFrom, List.drop_eq_nil_of_le hk]
  rfl

theorem enterFrom_succ (ht : tree.functions[k]? = some t) (p : Program) :
    tree.enterFrom k p = enterStep tree.symbols p (t, ⟨k⟩) >>= tree.enterFrom (k + 1) := by
  obtain ⟨hk, ht⟩ := List.getElem?_eq_some_iff.mp ht
  have hcount : tree.functions.length - k = tree.functions.length - (k + 1) + 1 := by omega
  rw [enterFrom, List.drop_eq_getElem_cons hk, ht, hcount, List.range'_succ, List.map_cons,
    List.zip_cons_cons, List.foldlM_cons]
  rfl

namespace Reaches

theorem resolve_eq (h : tree.Reaches k p) : tree.resolve = tree.enterFrom k p := by
  induction h with
  | start h => exact resolve_of_declares h
  | next h ht hstep ih =>
    rw [ih, enterFrom_succ ht, hstep]
    rfl

theorem entered (h : tree.Reaches k p) :
    ∃ fs gs, tree.Declares fs gs ∧ EnteredBelow tree fs gs k p := by
  induction h with
  | start h => exact ⟨_, _, h, enteredBelow_zero h.functions⟩
  | next h ht hstep ih =>
    obtain ⟨fs, gs, hdeclares, hentered⟩ := ih
    exact ⟨fs, gs, hdeclares, hentered.step hdeclares.functions ht hstep⟩

theorem resolve_error {e : ReadError} (h : tree.Reaches k p) (ht : tree.functions[k]? = some t)
    (hstep : enterStep tree.symbols p (t, ⟨k⟩) = .error e) : tree.resolve = .error e := by
  rw [h.resolve_eq, enterFrom_succ ht, hstep]
  rfl

theorem go_on (h : tree.Reaches k p) (hk : k ≤ tree.functions.length) :
    (∃ m, tree.Reaches tree.functions.length m) ∨ ∃ k p t e, tree.Reaches k p ∧
      tree.functions[k]? = some t ∧ enterStep tree.symbols p (t, ⟨k⟩) = .error e := by
  -- By induction on the number of functions that are left.
  induction hleft : tree.functions.length - k generalizing k p with
  | zero =>
    obtain rfl : k = tree.functions.length := by omega
    exact .inl ⟨p, h⟩
  | succ left ih =>
    have ht : tree.functions[k]? = some tree.functions[k] := List.getElem?_eq_getElem (by omega)
    cases hstep : enterStep tree.symbols p (tree.functions[k], ⟨k⟩) with
    | error e => exact .inr ⟨k, p, _, e, h, ht, hstep⟩
    | ok q => exact ih (h.next ht hstep) (by omega) (by omega)

end Reaches

theorem reaches_or_fails {fs : List Func} {gs : List Global} (h : tree.Declares fs gs) :
    (∃ m, tree.Reaches tree.functions.length m) ∨ ∃ k p t e, tree.Reaches k p ∧
      tree.functions[k]? = some t ∧ enterStep tree.symbols p (t, ⟨k⟩) = .error e :=
  (Reaches.start h).go_on (Nat.zero_le _)

theorem resolve_iff_reaches {m : Program} :
    tree.resolve = .ok m ↔ tree.Reaches tree.functions.length m := by
  constructor
  · intro h
    obtain ⟨fs, gs, hdeclares, -⟩ := resolve_iff.mp h
    rcases reaches_or_fails hdeclares with ⟨m', hm'⟩ | ⟨k, p, t, e, hp, ht, hstep⟩
    · rw [hm'.resolve_eq, enterFrom_of_le (Nat.le_refl _)] at h
      cases h
      exact hm'
    · rw [hp.resolve_error ht hstep] at h
      cases h
  · intro h
    rw [h.resolve_eq, enterFrom_of_le (Nat.le_refl _)]

theorem Reaches.before (h : tree.Reaches k p) {j : Nat} (hj : j < k) : ∃ p q t,
    tree.Reaches j p ∧ tree.functions[j]? = some t ∧ enterStep tree.symbols p (t, ⟨j⟩) = .ok q := by
  induction h with
  | start h => cases hj
  | next h ht hstep ih =>
    rcases Nat.lt_succ_iff_lt_or_eq.mp hj with hj | rfl
    · exact ih hj
    · exact ⟨_, _, _, h, ht, hstep⟩

theorem resolve_error_iff {fs : List Func} {gs : List Global} (hdeclares : tree.Declares fs gs)
    {e : ReadError} : tree.resolve = .error e ↔ ∃ k p t, tree.Reaches k p ∧
      tree.functions[k]? = some t ∧ enterStep tree.symbols p (t, ⟨k⟩) = .error e := by
  constructor
  · intro h
    rcases reaches_or_fails hdeclares with ⟨m, hm⟩ | ⟨k, p, t, e', hp, ht, hstep⟩
    · rw [resolve_iff_reaches.mpr hm] at h
      cases h
    · rw [hp.resolve_error ht hstep] at h
      cases h
      exact ⟨k, p, t, hp, ht, hstep⟩
  · rintro ⟨k, p, t, hp, ht, hstep⟩
    exact hp.resolve_error ht hstep

end ProgramTree

/-! ## 2. Symbols of parameters -/

/-- Whether there is a number behind the symbol: only the greatest number has none. -/
def Symbol.hasNext : Symbol → Bool
  | named _ => true
  | numbered n => n + 1 < span 32

/-- The symbols of parameters from the one with the number `slot` on. -/
def symbolsFrom (slot : Nat) : List (Option Symbol) → List Symbol
  | [] => []
  | symbol :: rest =>
    symbol.getD (.numbered slot) ::
      symbolsFrom (nextSlot slot (symbol.getD (.numbered slot))) rest

/-- Parameters in scope under their symbols, the last one first; the first one has the given
    position. -/
def argEntries (f : FuncId) (index : Nat) (symbols : List Symbol) : List (String × Value) :=
  ((symbols.zipIdx index).map fun x => (x.1.key, Value.arg f x.2)).reverse

section

variable {f : FuncId} {index slot : Nat} {param : Ty × Option Symbol}
  {params : List (Ty × Option Symbol)}

theorem argEntries_cons (symbol : Symbol) (rest : List Symbol) :
    argEntries f index (symbol :: rest) =
      argEntries f (index + 1) rest ++ [(symbol.key, .arg f index)] := by
  simp [argEntries]

theorem enterParams_step : enterParams f index slot (param :: params) =
    if (param.2.getD (.numbered slot)).hasNext then do
      let (values, last) ←
        enterParams f (index + 1) (nextSlot slot (param.2.getD (.numbered slot))) params
      return (values ++ [((param.2.getD (.numbered slot)).key, .arg f index)], last)
    else .error .slotOverflow := by
  obtain ⟨ty, symbol⟩ := param
  rcases symbol with _ | ⟨name⟩ | n
  · by_cases h : slot + 1 < span 32 <;> simp [enterParams, Symbol.hasNext, h] <;> rfl
  · rfl
  · by_cases h : n + 1 < span 32 <;> simp [enterParams, Symbol.hasNext, h] <;> rfl

theorem enterParams_ok (h : ∀ s ∈ symbolsFrom slot (params.map Prod.snd), s.hasNext = true) :
    enterParams f index slot params =
      .ok (argEntries f index (symbolsFrom slot (params.map Prod.snd)),
        (symbolsFrom slot (params.map Prod.snd)).foldl nextSlot slot) := by
  induction params generalizing index slot with
  | nil => rfl
  | cons param params ih =>
    rw [List.map_cons, symbolsFrom, List.forall_mem_cons] at h
    rw [enterParams_step, if_pos h.1, ih h.2, List.map_cons, symbolsFrom, argEntries_cons]
    rfl

theorem enterParams_error (h : ¬ ∀ s ∈ symbolsFrom slot (params.map Prod.snd), s.hasNext = true) :
    enterParams f index slot params = .error .slotOverflow := by
  induction params generalizing index slot with
  | nil => exact absurd nofun h
  | cons param params ih =>
    rw [List.map_cons, symbolsFrom, List.forall_mem_cons] at h
    rw [enterParams_step]
    by_cases hnext : (param.2.getD (.numbered slot)).hasNext = true
    · rw [if_pos hnext, ih fun hrest => h ⟨hnext, hrest⟩]
      rfl
    · rw [if_neg hnext]

end

/-! ## 3. Definitions of a body -/

namespace FuncTree

/-- The symbols of the parameters, written or counted. -/
def paramSymbols (t : FuncTree) : List Symbol := symbolsFrom 0 (t.params.map Prod.snd)

/-- The number behind the last parameter, which an entry block without a label takes. -/
def entrySlot (t : FuncTree) : Nat := t.paramSymbols.foldl nextSlot 0

/-- The instructions of all blocks. -/
def instrs (t : FuncTree) : List InstrTree := t.blocks.flatMap BlockTree.instrs

/-- The symbols of the blocks, written or counted. -/
def labels (t : FuncTree) : List Symbol := t.blocks.map (BlockTree.symbol t.entrySlot)

/-- Every parameter leaves a number behind it. -/
def KeepsSlots (t : FuncTree) : Prop := ∀ s ∈ t.paramSymbols, s.hasNext = true

/-- The parameters in scope. -/
def paramScope (t : FuncTree) (f : FuncId) : List (String × Value) :=
  argEntries f 0 t.paramSymbols

theorem enterParams_iff {t : FuncTree} {f : FuncId} {values : List (String × Value)} {slot : Nat} :
    enterParams f 0 0 t.params = .ok (values, slot) ↔
      t.KeepsSlots ∧ values = t.paramScope f ∧ slot = t.entrySlot := by
  by_cases h : t.KeepsSlots
  · rw [enterParams_ok h]
    simp only [h, true_and, Except.ok.injEq, Prod.mk.injEq]
    exact and_congr eq_comm eq_comm
  · rw [enterParams_error h]
    simp [h]

/-- The values that a body defines, under their symbols: parameters, and results of instructions. -/
inductive DefinesValue (t : FuncTree) (p : Program) (f : FuncId) : Symbol → Value → Prop
  | param {k : Nat} {s : Symbol} (hs : t.paramSymbols[k]? = some s) :
    DefinesValue t p f s (.arg f k)
  | result {k : Nat} {it : InstrTree} {s : Symbol} {id : InstrId} (hit : t.instrs[k]? = some it)
    (hs : it.result = some s) (hid : (p.instrsOf f)[k]? = some id) :
    DefinesValue t p f s (.instr id)

/-- The blocks that a body defines, under their symbols. -/
inductive DefinesBlock (t : FuncTree) (p : Program) (f : FuncId) : Symbol → BlockId → Prop
  | label {k : Nat} {s : Symbol} {b : BlockId} (hs : t.labels[k]? = some s)
    (hb : (p.func f).blocks[k]? = some b) : DefinesBlock t p f s b

variable {t : FuncTree} {p q : Program} {f : FuncId} {s : Symbol} {v : Value}

theorem DefinesValue.of_same (h : t.DefinesValue p f s v) (hinstrs : q.instrsOf f = p.instrsOf f) :
    t.DefinesValue q f s v := by
  cases h with
  | param hs => exact .param hs
  | result hit hs hid => exact .result hit hs (hinstrs ▸ hid)

theorem DefinesBlock.of_same {b : BlockId} (h : t.DefinesBlock p f s b)
    (hblocks : (q.func f).blocks = (p.func f).blocks) : t.DefinesBlock q f s b := by
  obtain ⟨hs, hb⟩ := h
  exact .label hs (hblocks ▸ hb)

end FuncTree

/-! ## 4. Names in scope -/

theorem getElem?_instrIds {start count k : Nat} (h : k < count) :
    (instrIds start count)[k]? = some ⟨start + k⟩ := by
  simp [instrIds, h]

theorem getElem?_blockIds {start count k : Nat} (h : k < count) :
    (blockIds start count)[k]? = some ⟨start + k⟩ := by
  simp [blockIds, h]

theorem mem_resultEntries {ts : List InstrTree} : ∀ {n : Nat}, ∀ x ∈ resultEntries n ts,
    ∃ k it s, ts[k]? = some it ∧ it.result = some s ∧ x = (s.key, .instr ⟨n + k⟩) := by
  induction ts with
  | nil =>
    intro n x hx
    cases hx
  | cons t ts ih =>
    intro n x hx
    rcases List.mem_append.mp hx with hx | hx
    · simp only [resultEntry, Option.mem_toList, Option.map_eq_some_iff] at hx
      obtain ⟨s, hs, rfl⟩ := hx
      exact ⟨0, t, s, rfl, hs, rfl⟩
    · obtain ⟨k, it, s, hit, hs, rfl⟩ := ih x hx
      exact ⟨k + 1, it, s, hit, hs, by rw [Nat.add_right_comm, Nat.add_assoc]⟩

theorem mem_paramScope {t : FuncTree} {f : FuncId} {x : String × Value} (hx : x ∈ t.paramScope f) :
    ∃ k s, t.paramSymbols[k]? = some s ∧ x = (s.key, .arg f k) := by
  obtain ⟨⟨s, k⟩, hs, rfl⟩ := List.mem_map.mp (List.mem_reverse.mp hx)
  exact ⟨k, s, List.mem_zipIdx_iff_getElem?.mp hs, rfl⟩

/-- The names in scope stand for definitions of the body with those keys. -/
structure BodyScoped (p : Program) (f : FuncId) (t : FuncTree) (scope : Scope) : Prop where
  values : ∀ x ∈ scope.values, ∃ s, s.key = x.1 ∧ t.DefinesValue p f s x.2
  blocks : ∀ x ∈ scope.blocks, ∃ s, s.key = x.1 ∧ t.DefinesBlock p f s x.2

section

variable {p : Program} {f g : FuncId} {t : FuncTree} {scope : Scope}

theorem BodyScoped.withBody (h : BodyScoped p g t scope) (hlaid : Laid p) (hg : g ≠ f)
    (bs : List Block) (is : List Instr) : BodyScoped (withBody p f bs is) g t scope := by
  have hinstrs := instrsOf_withBody_ne bs is hlaid hg
  have hblocks : ((Assembly.withBody p f bs is).func g).blocks = (p.func g).blocks := by
    rw [func_withBody_ne hg]
  refine ⟨fun x hx => ?_, fun x hx => ?_⟩
  · obtain ⟨s, hs, hdefines⟩ := h.values x hx
    exact ⟨s, hs, hdefines.of_same hinstrs⟩
  · obtain ⟨s, hs, hdefines⟩ := h.blocks x hx
    exact ⟨s, hs, hdefines.of_same hblocks⟩

theorem bodyScoped_withBody (hf : f.index < p.functions.size) (is : List Instr) :
    BodyScoped (withBody p f (blockNodes f t.entrySlot p.instrs.size t.blocks) is) f t
      (bodyScope p t (t.paramScope f) t.entrySlot) := by
  have hinstrs : (withBody p f (blockNodes f t.entrySlot p.instrs.size t.blocks) is).instrsOf f =
      instrIds p.instrs.size t.instrs.length := instrsOf_withBody_self hf
  have hblocks : ((withBody p f (blockNodes f t.entrySlot p.instrs.size t.blocks) is).func
      f).blocks = blockIds p.blocks.size t.blocks.length := by
    rw [func_withBody_self hf, length_blockNodes]
  refine ⟨fun x hx => ?_, fun x hx => ?_⟩
  · rcases List.mem_append.mp hx with hx | hx
    · obtain ⟨k, it, s, hit, hs, rfl⟩ := mem_resultEntries x (List.mem_reverse.mp hx)
      have hk : k < t.instrs.length := (List.getElem?_eq_some_iff.mp hit).1
      exact ⟨s, rfl, .result hit hs (by rw [hinstrs, getElem?_instrIds hk])⟩
    · obtain ⟨k, s, hs, rfl⟩ := mem_paramScope hx
      exact ⟨s, rfl, .param hs⟩
  · obtain ⟨k, hk, rfl⟩ := List.getElem_of_mem (List.mem_reverse.mp hx)
    rw [List.length_zip, List.length_map] at hk
    have hlt : k < t.blocks.length := Nat.lt_of_lt_of_le hk (Nat.min_le_left _ _)
    refine ⟨t.blocks[k].symbol t.entrySlot, by simp, .label (k := k) ?_ ?_⟩
    · simp [FuncTree.labels, hlt]
    · rw [hblocks, getElem?_blockIds hlt]
      simp [blockIds]

end

namespace ProgramTree

variable {tree : ProgramTree} {k : Nat} {p q : Program} {t : FuncTree}

theorem enterStep_ok {f : FuncId} (hf : f.index < p.functions.size)
    (hblocks : (p.func f).blocks = []) : enterStep tree.symbols p (t, f) = .ok q ↔
      (t.blocks = [] ∧ q = p) ∨ (t.blocks ≠ [] ∧ t.KeepsSlots ∧ ∃ is,
        BodyEntered tree.symbols p t (t.paramScope f) t.entrySlot is ∧
          q = withBody p f (blockNodes f t.entrySlot p.instrs.size t.blocks) is) := by
  unfold enterStep
  by_cases hempty : t.blocks = []
  · simp [hempty, eq_comm]
  · simp only [List.isEmpty_iff, hempty, if_false, enterBody_iff hf hblocks,
      FuncTree.enterParams_iff]
    constructor
    · rintro ⟨params, slot, is, ⟨hslots, rfl, rfl⟩, hbody, rfl⟩
      exact .inr ⟨hempty, hslots, is, hbody, rfl⟩
    · rintro (⟨h, -⟩ | ⟨-, hslots, is, hbody, rfl⟩)
      · exact h.elim
      · exact ⟨_, _, is, ⟨hslots, rfl, rfl⟩, hbody, rfl⟩

theorem Reaches.next_body (h : tree.Reaches k p) (ht : tree.functions[k]? = some t) :
    k < p.functions.size ∧ (p.func ⟨k⟩).blocks = [] := by
  obtain ⟨fs, gs, hdeclares, hentered⟩ := h.entered
  have hlt : k < tree.functions.length := (List.getElem?_eq_some_iff.mp ht).1
  refine ⟨?_, hentered.above k (Nat.le_refl k)⟩
  rw [hentered.size, ← hdeclares.functions.length_eq]
  exact hlt

theorem Reaches.scoped (h : tree.Reaches k p) : ∀ j < k, ∀ t, tree.functions[j]? = some t →
    ∃ scope, BodyOf tree.symbols tree.types p ⟨j⟩ t scope ∧ BodyScoped p ⟨j⟩ t scope := by
  induction h with
  | start h =>
    intro j hj
    cases hj
  | @next k p q t h ht hstep ih =>
    obtain ⟨hlt, hblocks⟩ := h.next_body ht
    obtain ⟨fs, gs, hdeclares, hentered⟩ := h.entered
    have htypes : p.namedTypes = tree.types.namedTypes := by rw [hentered.rest]; rfl
    intro j hj t' ht'
    rcases (enterStep_ok hlt hblocks).mp hstep with ⟨hempty, rfl⟩ | ⟨-, hslots, is, hbody, rfl⟩
    · rcases Nat.lt_succ_iff_lt_or_eq.mp hj with hj | rfl
      · exact ih j hj t' ht'
      · obtain rfl : t = t' := Option.some.inj (ht.symm.trans ht')
        refine ⟨⟨"", [], []⟩, ⟨by simp, by simp, ?_⟩, ⟨by simp, by simp⟩⟩
        simp [Program.instrsOf, hblocks, hempty]
    · rcases Nat.lt_succ_iff_lt_or_eq.mp hj with hj | rfl
      · obtain ⟨scope, hbodyOf, hscoped⟩ := ih j hj t' ht'
        have hne : (⟨j⟩ : FuncId) ≠ ⟨k⟩ := by simpa using Nat.ne_of_lt hj
        exact ⟨scope, hbodyOf.withBody hentered.laid hne _ _,
          hscoped.withBody hentered.laid hne _ _⟩
      · obtain rfl : t = t' := Option.some.inj (ht.symm.trans ht')
        have hlen : (p.func ⟨j⟩).params.length = t.params.length := by
          obtain ⟨fn, hfn, hnode⟩ := forall₂_get hdeclares.functions ht
          rw [hentered.nodes j fn hfn]
          exact (funcNode_declares hnode).2.2
        have hparams := (FuncTree.enterParams_iff (f := ⟨j⟩)).mpr ⟨hslots, rfl, rfl⟩
        exact ⟨_, bodyOf_withBody hlt htypes hlen hparams hbody, bodyScoped_withBody hlt is⟩

end ProgramTree

end QirProfile.Assembly
