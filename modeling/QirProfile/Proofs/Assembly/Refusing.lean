import QirProfile.Proofs.Assembly.Definitions
import QirProfile.Proofs.Keys

/-!
# Why a tree is refused

Entering a tree is refused for a few reasons only. `Refuses P x` says that `x`, when it is refused, is
refused for a reason `P`; a sequence or a loop is refused for the reasons of its parts.
-/

namespace QirProfile.Assembly

/-! ## 1. Reasons -/

section

variable {α β σ : Type} {P Q : ReadError → Prop} {x : Except ReadError α}
  {f : α → Except ReadError β}

/-- What is refused is refused for a reason `P`. -/
def Refuses (P : ReadError → Prop) (x : Except ReadError α) : Prop := ∀ e, x = .error e → P e

theorem refuses_ok (a : α) : Refuses P (.ok a) := nofun

theorem refuses_error {e : ReadError} (h : P e) : Refuses P (.error e : Except ReadError α) := by
  intro e' he
  cases he
  exact h

theorem Refuses.mono (h : Refuses P x) (hpq : ∀ e, P e → Q e) : Refuses Q x :=
  fun e he => hpq e (h e he)

theorem Refuses.bind_ok (h : Refuses P x) (hf : ∀ a, x = .ok a → Refuses P (f a)) :
    Refuses P (x >>= f) := by
  intro e he
  cases x with
  | error e' =>
    cases he
    exact h _ rfl
  | ok a => exact hf a rfl e he

theorem Refuses.bind (h : Refuses P x) (hf : ∀ a, Refuses P (f a)) : Refuses P (x >>= f) :=
  h.bind_ok fun a _ => hf a

theorem refuses_mapM {g : α → Except ReadError β} (hg : ∀ a, Refuses P (g a)) (as : List α) :
    Refuses P (as.mapM g) := by
  induction as with
  | nil => exact refuses_ok _
  | cons a as ih =>
    rw [List.mapM_cons]
    exact (hg a).bind fun _ => ih.bind fun _ => refuses_ok _

theorem refuses_foldlM {step : σ → α → Except ReadError σ} (hstep : ∀ s a, Refuses P (step s a))
    (as : List α) (s : σ) : Refuses P (as.foldlM step s) := by
  induction as generalizing s with
  | nil => exact refuses_ok _
  | cons a as ih =>
    rw [List.foldlM_cons]
    exact (hstep s a).bind fun s => ih s

end

/-! ## 2. Values and operands -/

/-- A value does not resolve: a symbol has no definition, or an integer is out of range. -/
inductive ReadError.IsUnresolved : ReadError → Prop
  | undefined (name scope : String) : IsUnresolved (.undefinedSymbol name scope)
  | outOfRange (line : Nat) (n : Int) : IsUnresolved (.integerOutOfRange line n)

open ReadError (IsUnresolved)

theorem refuses_local (names : Names) (s : Symbol) : Refuses IsUnresolved (names.local s) := by
  unfold Names.local
  split
  · exact refuses_error (.undefined _ _)
  · split
    · exact refuses_ok _
    · exact refuses_error (.undefined _ _)

theorem refuses_global (names : Names) (s : Symbol) : Refuses IsUnresolved (names.global s) := by
  unfold Names.global
  split
  · exact refuses_ok _
  · exact refuses_error (.undefined _ _)

theorem refuses_block (scope : Scope) (s : Symbol) : Refuses IsUnresolved (scope.block s) := by
  unfold Scope.block
  split
  · exact refuses_ok _
  · exact refuses_error (.undefined _ _)

theorem refuses_payload (n : Int) : Refuses IsUnresolved (payload n) := by
  unfold payload
  split
  · exact refuses_ok _
  · exact refuses_error (.outOfRange _ _)

mutual

theorem refuses_resolveTerm (names : Names) : (ty : Ty) → (t : Term) →
    Refuses IsUnresolved (resolveTerm names ty t)
  | _, .local s => by
    simp only [resolveTerm]
    exact refuses_local names s
  | _, .global s => by
    simp only [resolveTerm]
    exact refuses_global names s
  | _, .int n => by
    simp only [resolveTerm]
    exact (refuses_payload n).bind fun _ => refuses_ok _
  | _, .bool _ | _, .float _ | _, .null | _, .undef | _, .zero | _, .bytes _ => by
    simp only [resolveTerm]
    exact refuses_ok _
  | _, .array ts | _, .struct ts => by
    simp only [resolveTerm]
    exact (refuses_resolveAll names ts).bind fun _ => refuses_ok _
  | _, .cast _ t _ => by
    simp only [resolveTerm]
    exact (refuses_resolveTyped names t).bind fun _ => refuses_ok _
  | _, .gep _ _ t ts => by
    simp only [resolveTerm]
    exact (refuses_resolveAll names ts).bind fun _ =>
      (refuses_resolveTyped names t).bind fun _ => refuses_ok _

theorem refuses_resolveTyped (names : Names) : (t : TypedTerm) →
    Refuses IsUnresolved (resolveTyped names t)
  | .mk ty t => by
    simp only [resolveTyped]
    exact refuses_resolveTerm names ty t

theorem refuses_resolveAll (names : Names) : (ts : List TypedTerm) →
    Refuses IsUnresolved (resolveAll names ts)
  | [] => by
    simp only [resolveAll]
    exact refuses_ok _
  | t :: ts => by
    simp only [resolveAll]
    exact (refuses_resolveTyped names t).bind fun _ =>
      (refuses_resolveAll names ts).bind fun _ => refuses_ok _

end

theorem refuses_operands (names : Names) (scope : Scope) (op : Operation) :
    Refuses IsUnresolved (op.operands names scope) := by
  have hterm := refuses_resolveTerm names
  have htyped := refuses_resolveTyped names
  have hall := refuses_resolveAll names
  have hblock := refuses_block scope
  cases op with
  | ret value =>
    cases value with
    | none => exact refuses_ok _
    | some value => exact (htyped value).bind fun _ => refuses_ok _
  | unreachable | alloca => exact refuses_ok _
  | br dest => exact (hblock dest).bind fun _ => refuses_ok _
  | condBr cond ifTrue ifFalse =>
    exact (htyped cond).bind fun _ => (hblock ifFalse).bind fun _ => (hblock ifTrue).bind fun _ =>
      refuses_ok _
  | switch cond default cases =>
    exact (htyped cond).bind fun _ => (hblock default).bind fun _ =>
      (refuses_mapM (fun x => (htyped x.1).bind fun _ => (hblock x.2).bind fun _ => refuses_ok _)
        cases).bind fun _ => refuses_ok _
  | call marker result callee args =>
    exact (hall args).bind fun _ => (hterm .void callee).bind fun _ => refuses_ok _
  | invoke result callee args normal unwind =>
    exact (hall args).bind fun _ => (hblock normal).bind fun _ => (hblock unwind).bind fun _ =>
      (hterm .void callee).bind fun _ => refuses_ok _
  | binary op ty lhs rhs | icmp pred ty lhs rhs =>
    exact (hterm ty lhs).bind fun _ => (hterm ty rhs).bind fun _ => refuses_ok _
  | cast op value target | load ty value align =>
    exact (htyped value).bind fun _ => refuses_ok _
  | store value ptr align | gep inbounds source base indices | select cond ifTrue ifFalse =>
    exact (hall _).bind fun _ => refuses_ok _
  | phi ty incoming =>
    exact (refuses_mapM (fun x => (hterm ty x.1).bind fun _ => (hblock x.2).bind fun _ =>
      refuses_ok _) incoming).bind fun _ => refuses_ok _

/-! ## 3. Keys that are taken -/

/-- The first key that is taken, or stands in front of itself. -/
def firstTaken : (taken keys : List String) → Option String
  | _, [] => none
  | taken, key :: keys => if key ∈ taken then some key else firstTaken (key :: taken) keys

section

variable {taken keys : List String}

theorem firstTaken_eq_none :
    firstTaken taken keys = none ↔ keys.Nodup ∧ ∀ key ∈ keys, key ∉ taken := by
  induction keys generalizing taken with
  | nil => simp [firstTaken]
  | cons k keys ih =>
    rw [firstTaken]
    by_cases hk : k ∈ taken
    · simp [hk]
    · rw [if_neg hk, ih, List.nodup_cons]
      constructor
      · rintro ⟨hnodup, hfree⟩
        refine ⟨⟨fun hmem => hfree k hmem List.mem_cons_self, hnodup⟩, ?_⟩
        exact List.forall_mem_cons.mpr
          ⟨hk, fun k' hk' hmem => hfree k' hk' (List.mem_cons_of_mem k hmem)⟩
      · rintro ⟨⟨hfresh, hnodup⟩, hfree⟩
        refine ⟨hnodup, fun k' hk' hmem => ?_⟩
        rcases List.mem_cons.mp hmem with rfl | hmem
        · exact hfresh hk'
        · exact hfree k' (List.mem_cons_of_mem k hk') hmem

theorem firstTaken_congr {taken' : List String} (h : ∀ key, key ∈ taken ↔ key ∈ taken') :
    firstTaken taken keys = firstTaken taken' keys := by
  induction keys generalizing taken taken' with
  | nil => rfl
  | cons k keys ih =>
    have hrest := @ih (k :: taken) (k :: taken') fun key => by simp [h]
    simp only [firstTaken, h, hrest]

end

theorem canEnter_iff {β : Type} {taken : List (String × β)} {keys : List String} :
    CanEnter taken keys ↔ firstTaken (taken.map Prod.fst) keys = none := by
  rw [firstTaken_eq_none, CanEnter]
  simp only [lookup_eq_none]

theorem lookup_isSome_iff {β : Type} {l : List (String × β)} {key : String} :
    (l.lookup key).isSome = true ↔ key ∈ l.map Prod.fst := by
  rw [Option.isSome_iff_ne_none, Ne, lookup_eq_none, not_not]

/-! ## 4. Bodies -/

section

variable {f : FuncId} {slot : Nat} {key : String}

theorem enterBlocks_taken {bs : List BlockTree} :
    ∀ {p : Program} {taken : List (String × BlockId)},
      firstTaken (taken.map Prod.fst) (bs.map fun b => (b.symbol slot).key) = some key →
        enterBlocks f slot bs (p, taken) = .error (.duplicateDefinition ("%" ++ key)) := by
  induction bs with
  | nil =>
    intro p taken h
    cases h
  | cons b bs ih =>
    intro p taken h
    rw [List.map_cons, firstTaken] at h
    rw [enterBlocks]
    change (if (taken.lookup (b.symbol slot).key).isSome = true then
      Except.error (.duplicateDefinition ("%" ++ (b.symbol slot).key)) else
      enterBlocks f slot bs ((p.appendBlock f (b.symbol slot).name?).1,
        ((b.symbol slot).key, (p.appendBlock f (b.symbol slot).name?).2) :: taken)) = _
    by_cases htaken : (b.symbol slot).key ∈ taken.map Prod.fst
    · rw [if_pos htaken] at h
      rw [if_pos (lookup_isSome_iff.mpr htaken), Option.some.inj h]
    · rw [if_neg htaken] at h
      rw [if_neg (lookup_isSome_iff.not.mpr htaken)]
      exact ih h

theorem enterInstr_taken {b : BlockId} {s : Entered} {t : InstrTree} {symbol : Symbol}
    (h : IsOpen s.program b) (hresult : t.result = some symbol)
    (htaken : symbol.key ∈ s.values.map Prod.fst) :
    enterInstr b s t = .error (.duplicateDefinition ("%" ++ symbol.key)) := by
  obtain ⟨result, op, line⟩ := t
  obtain rfl : result = some symbol := hresult
  have hadd := createInstr_append h (op.kindAndTy s.program).1 (op.kindAndTy s.program).2
    symbol.name?
  change ((((s.program.createInstr (op.kindAndTy s.program).1
    (op.kindAndTy s.program).2 []).1.setInstrName ⟨s.program.instrs.size⟩
      symbol.name?).appendInstr b ⟨s.program.instrs.size⟩).mapError _ >>= _) = _
  simp only [hadd, Except.mapError, lookup_isSome_iff.mpr htaken, if_true]
  rfl

theorem foldlM_enterInstr_taken {xs : List (BlockId × InstrTree)} :
    ∀ {s : Entered}, (∀ x ∈ xs, IsOpen s.program x.1) →
      firstTaken (s.values.map Prod.fst) (xs.flatMap fun x => resultKey x.2) = some key →
        xs.foldlM (fun s x => enterInstr x.1 s x.2) s =
          .error (.duplicateDefinition ("%" ++ key)) := by
  induction xs with
  | nil =>
    intro s _ h
    cases h
  | cons x xs ih =>
    intro s hopen h
    have hx := hopen x List.mem_cons_self
    have htail : ∀ y ∈ xs, IsOpen (s.add x).program y.1 :=
      fun y hy => isOpen_add (hopen y (List.mem_cons_of_mem x hy)) x
    rw [List.flatMap_cons] at h
    rw [List.foldlM_cons]
    cases hresult : x.2.result with
    | none =>
      have hkey : resultKey x.2 = [] := by simp [resultKey, hresult]
      have hvalues : (s.add x).values = s.values := by simp [Entered.add, resultEntry, hresult]
      rw [hkey, List.nil_append] at h
      rw [(enterInstr_iff hx).mpr ⟨hkey ▸ canEnter_nil _, rfl⟩]
      exact ih htail (hvalues ▸ h)
    | some symbol =>
      have hkey : resultKey x.2 = [symbol.key] := by simp [resultKey, hresult]
      have hvalues : (s.add x).values.map Prod.fst = symbol.key :: s.values.map Prod.fst := by
        simp [Entered.add, resultEntry, hresult]
      rw [hkey, List.singleton_append, firstTaken] at h
      by_cases htaken : symbol.key ∈ s.values.map Prod.fst
      · rw [if_pos htaken] at h
        rw [enterInstr_taken hx hresult htaken, Option.some.inj h]
        rfl
      · rw [if_neg htaken] at h
        have hfree : CanEnter s.values (resultKey x.2) := by
          rw [hkey, canEnter_iff, firstTaken, if_neg htaken, firstTaken]
        rw [(enterInstr_iff hx).mpr ⟨hfree, rfl⟩]
        exact ih htail (hvalues ▸ h)

theorem refuses_foldlM_fillInstr (p₀ : Program) {names : Names} {scope : Scope}
    {ts : List (BlockId × InstrTree)} : ∀ {p : Program} (xs : Array Instr),
      p.instrs = xs ++ (ts.map fun x => instrNode p₀ x.1 x.2).toArray →
      Refuses IsUnresolved (((instrIds xs.size ts.length).zip (ts.map Prod.snd)).foldlM
        (fun p (x : InstrId × InstrTree) => fillInstr names scope p x.1 x.2) p) := by
  induction ts with
  | nil =>
    intro p xs _
    exact refuses_ok _
  | cons t ts ih =>
    intro p xs hp
    rw [List.map_cons] at hp
    rw [List.length_cons, instrIds_succ, List.map_cons, List.zip_cons_cons, List.foldlM_cons]
    refine Refuses.bind_ok ?_ fun p₁ h₁ => ?_
    · intro e he
      cases hop : t.2.operation.operands names scope with
      | error e' =>
        rw [fillInstr, hop] at he
        cases he
        exact refuses_operands names scope _ _ hop
      | ok out =>
        rw [(fillInstr_iff hp rfl).mpr ⟨out, hop, rfl⟩] at he
        cases he
    · obtain ⟨out, hout, rfl⟩ := (fillInstr_iff hp rfl).mp h₁
      have hnext : xs.size + 1 =
          (xs.push (fillNode (instrNode p₀ t.1 t.2) t.2.operation out)).size := by
        simp
      rw [hnext]
      exact ih _ (by simp)

end

namespace FuncTree

instance (t : FuncTree) : Decidable t.KeepsSlots :=
  inferInstanceAs (Decidable (∀ s ∈ t.paramSymbols, s.hasNext = true))

/-- The symbols of the results. -/
def results (t : FuncTree) : List Symbol := t.instrs.filterMap InstrTree.result

/-- The first key of the body that is taken: of a label by one in front of it, of a result by a
    parameter or a result in front of it. -/
def repeated? (t : FuncTree) : Option String :=
  (firstTaken [] (t.labels.map Symbol.key)).or
    (firstTaken (t.paramSymbols.map Symbol.key) (t.results.map Symbol.key))

/-- Gives the instructions of a body that is entered their operands. -/
def fillBody (symbols : List (String × Value)) (p : Program) (f : FuncId) (t : FuncTree) :
    Except ReadError Program :=
  let entered := enteredBody p f t (t.paramScope f) t.entrySlot
  let scope := bodyScope p t (t.paramScope f) t.entrySlot
  entered.instrs.foldlM
    (fun q x => fillInstr ⟨entered.program, symbols, some scope⟩ scope q x.1 x.2) entered.program

variable {t : FuncTree}

theorem map_key_results : t.results.map Symbol.key = t.instrs.flatMap resultKey := by
  unfold results
  induction t.instrs with
  | nil => rfl
  | cons it its ih =>
    cases hresult : it.result with
    | none => simp [hresult, resultKey, ih]
    | some s => simp [hresult, resultKey, ih]

theorem repeated?_eq_none : t.repeated? = none ↔
    (t.labels.map Symbol.key).Nodup ∧ (t.results.map Symbol.key).Nodup ∧
      ∀ r ∈ t.results, ∀ s ∈ t.paramSymbols, s.key ≠ r.key := by
  simp [repeated?, firstTaken_eq_none]

theorem firstTaken_results (f : FuncId) :
    firstTaken ((t.paramScope f).map Prod.fst) (t.instrs.flatMap resultKey) =
      firstTaken (t.paramSymbols.map Symbol.key) (t.results.map Symbol.key) := by
  rw [map_key_results]
  refine firstTaken_congr fun key => ?_
  have hkeys : (t.paramScope f).map Prod.fst = (t.paramSymbols.map Symbol.key).reverse := by
    rw [paramScope, argEntries, List.map_reverse, List.map_map, List.reverse_inj]
    exact (List.map_map (l := t.paramSymbols.zipIdx) (f := Prod.fst) (g := Symbol.key)).symm.trans
      (by rw [List.zipIdx_map_fst])
  rw [hkeys, List.mem_reverse]

end FuncTree

section

variable {symbols : List (String × Value)} {p : Program} {f : FuncId} {t : FuncTree}

theorem enterBody_eq (hf : f.index < p.functions.size) (hblocks : (p.func f).blocks = []) :
    enterBody symbols p f t = if t.KeepsSlots then
      match t.repeated? with
      | some key => .error (.duplicateDefinition ("%" ++ key))
      | none => t.fillBody symbols p f
    else .error .slotOverflow := by
  unfold enterBody
  by_cases hslots : t.KeepsSlots
  · rw [if_pos hslots, FuncTree.enterParams_iff.mpr ⟨hslots, rfl, rfl⟩]
    change (enterBlocks f t.entrySlot t.blocks (p, []) >>= _) = _
    have hlabels : t.labels.map Symbol.key =
        t.blocks.map fun b => (b.symbol t.entrySlot).key := by
      rw [FuncTree.labels, List.map_map]
      rfl
    cases hblock : firstTaken [] (t.labels.map Symbol.key) with
    | some key =>
      rw [enterBlocks_taken (hlabels ▸ hblock), FuncTree.repeated?, hblock]
      rfl
    | none =>
      have henter : CanEnter ([] : List (String × BlockId)) (t.labels.map Symbol.key) :=
        canEnter_iff.mpr hblock
      rw [enterBlocks_iff.mpr ⟨hlabels ▸ henter, rfl, rfl⟩, FuncTree.repeated?, hblock,
        Option.none_or]
      change (List.foldlM (m := Except ReadError) (fun s (x : BlockTree × BlockId) =>
        x.1.instrs.foldlM (enterInstr x.2) s) _ _ >>= _) = _
      rw [← FuncTree.firstTaken_results f]
      cases hresult : firstTaken ((t.paramScope f).map Prod.fst) (t.instrs.flatMap resultKey) with
      | some key =>
        have hkeys : firstTaken ((t.paramScope f).map Prod.fst)
            ((placed p.blocks.size t.blocks).flatMap fun x => resultKey x.2) = some key := by
          rw [resultKey_placed]
          exact hresult
        have hopen : ∀ x ∈ placed p.blocks.size t.blocks,
            IsOpen (addBlocks f (t.blocks.map fun b => (b.symbol t.entrySlot).name?) p) x.1 :=
          isOpen_placed
        rw [enterInstrs_eq hf hblocks, foldlM_enterInstr_taken hopen hkeys]
        rfl
      | none =>
        rw [(enterInstrs_iff hf hblocks).mpr ⟨canEnter_iff.mpr hresult, rfl⟩]
        change List.foldlM (m := Except ReadError) _ _ _ = List.foldlM _ _ _
        rw [enteredBody_values, List.append_nil]
        rfl
  · rw [if_neg hslots, enterParams_error hslots]
    rfl

theorem refuses_fillBody (hf : f.index < p.functions.size) (hblocks : (p.func f).blocks = []) :
    Refuses IsUnresolved (t.fillBody symbols p f) := by
  simp only [FuncTree.fillBody, enteredBody_instrs]
  refine refuses_foldlM_fillInstr p p.instrs ?_
  rw [enteredBody_program hf hblocks]
  rfl

theorem enterStep_error_iff (hf : f.index < p.functions.size) (hblocks : (p.func f).blocks = [])
    {e : ReadError} : ProgramTree.enterStep symbols p (t, f) = .error e ↔ t.blocks ≠ [] ∧
      ((¬ t.KeepsSlots ∧ e = .slotOverflow) ∨
        (t.KeepsSlots ∧ ∃ key, t.repeated? = some key ∧ e = .duplicateDefinition ("%" ++ key)) ∨
        (t.KeepsSlots ∧ t.repeated? = none ∧ t.fillBody symbols p f = .error e)) := by
  unfold ProgramTree.enterStep
  by_cases hempty : t.blocks = []
  · simp [hempty]
  · rw [if_neg (by simpa using hempty), enterBody_eq hf hblocks]
    by_cases hslots : t.KeepsSlots
    · cases hrepeated : t.repeated? with
      | some key => simp [hempty, hslots, eq_comm]
      | none => simp [hempty, hslots]
    · simp [hempty, hslots, eq_comm]

theorem enterStep_duplicate_iff (hf : f.index < p.functions.size)
    (hblocks : (p.func f).blocks = []) {key : String} :
    ProgramTree.enterStep symbols p (t, f) = .error (.duplicateDefinition ("%" ++ key)) ↔
      t.blocks ≠ [] ∧ t.KeepsSlots ∧ t.repeated? = some key := by
  rw [enterStep_error_iff hf hblocks]
  constructor
  · rintro ⟨hbody, ⟨-, h⟩ | ⟨hslots, key', hkey, h⟩ | ⟨-, -, h⟩⟩
    · cases h
    · have hsame : key = key' := by simpa using h
      exact ⟨hbody, hslots, hsame ▸ hkey⟩
    · cases refuses_fillBody hf hblocks _ h
  · rintro ⟨hbody, hslots, hkey⟩
    exact ⟨hbody, .inr (.inl ⟨hslots, key, hkey, rfl⟩)⟩

theorem enterStep_overflow_iff (hf : f.index < p.functions.size)
    (hblocks : (p.func f).blocks = []) :
    ProgramTree.enterStep symbols p (t, f) = .error .slotOverflow ↔
      t.blocks ≠ [] ∧ ¬ t.KeepsSlots := by
  rw [enterStep_error_iff hf hblocks]
  constructor
  · rintro ⟨hbody, ⟨hslots, -⟩ | ⟨-, key, -, h⟩ | ⟨-, -, h⟩⟩
    · exact ⟨hbody, hslots⟩
    · cases h
    · cases refuses_fillBody hf hblocks _ h
  · rintro ⟨hbody, hslots⟩
    exact ⟨hbody, .inl ⟨hslots, rfl⟩⟩

end

/-! ## 5. Declarations -/

/-- A declaration is refused: a global name is taken, or something has no definition. -/
inductive ReadError.IsDeclaring : ReadError → Prop
  | duplicate (name : String) : IsDeclaring (.duplicateDefinition ("@" ++ name))
  | unresolved {e : ReadError} (h : e.IsUnresolved) : IsDeclaring e

open ReadError (IsDeclaring)

theorem refuses_mapError {ε α : Type} {P : ReadError → Prop} {x : Except ε α}
    {g : ε → ReadError} (h : ∀ e, P (g e)) : Refuses P (x.mapError g) := by
  cases x with
  | error e => exact refuses_error (h e)
  | ok a => exact refuses_ok a

theorem refuses_enterAll {τ ι : Type} {P : ReadError → Prop}
    {enter : Program → τ → Except ReadError (Program × ι)} (h : ∀ p t, Refuses P (enter p t))
    (ts : List τ) (p : Program) : Refuses P (enterAll enter p ts) := by
  induction ts generalizing p with
  | nil => exact refuses_ok _
  | cons t ts ih => exact (h p t).bind fun x => (ih x.1).bind fun _ => refuses_ok _

theorem refuses_enterGlobal (p : Program) (t : GlobalTree) :
    Refuses IsDeclaring (enterGlobal p t) :=
  refuses_mapError fun _ => .duplicate t.name.key

theorem refuses_enterFunction (groups : List (Nat × List Attribute)) (p : Program) (t : FuncTree) :
    Refuses IsDeclaring (enterFunction groups p t) := by
  refine Refuses.bind (refuses_mapError fun _ => .duplicate t.name) fun x => ?_
  refine Refuses.bind ?_ fun _ => refuses_ok _
  refine Refuses.bind (refuses_mapM (fun id => ?_) _) fun _ => refuses_ok _
  split
  · exact refuses_ok _
  · exact refuses_error (.unresolved (.undefined _ _))

theorem refuses_setInitial (symbols : List (String × Value)) (p : Program)
    (x : GlobalTree × GlobalId) : Refuses IsDeclaring (setInitial symbols p x) := by
  unfold setInitial
  split
  · exact refuses_ok _
  · exact ((refuses_resolveTerm _ _ _).mono fun _ => .unresolved).bind fun _ => refuses_ok _

namespace ProgramTree

variable {tree : ProgramTree} {e : ReadError}

theorem declaring_or_declares (h : tree.resolve = .error e) :
    e.IsDeclaring ∨ ∃ fs gs, tree.Declares fs gs := by
  unfold ProgramTree.resolve at h
  simp only [except_bind_error] at h
  rcases h with h | ⟨⟨p₁, gids⟩, h₁, h | ⟨⟨p₂, fids⟩, h₂, h | ⟨p₃, h₃, -⟩⟩⟩
  · exact .inl (refuses_enterAll refuses_enterGlobal _ _ e h)
  · exact .inl (refuses_enterAll (refuses_enterFunction _) _ _ e h)
  · exact .inl (refuses_foldlM (refuses_setInitial _) _ _ e h)
  · obtain ⟨hgnodup, rfl, rfl⟩ := enterGlobals_iff.mp h₁
    obtain ⟨⟨hfnodup, hapart⟩, fs, hfs, rfl, rfl⟩ := enterFunctions_iff.mp h₂
    simp only [zip_globalSymbols, zip_functionSymbols] at h₃
    obtain ⟨gs, hgs, -⟩ := (setInitials_iff fs).mp h₃
    exact .inr ⟨fs, gs, hgnodup, hfnodup, hapart, hfs, hgs⟩

/-- A tree is refused while it is declared, or for the first body that cannot be entered. -/
theorem resolve_error_cases (h : tree.resolve = .error e) : e.IsDeclaring ∨ ∃ k p t,
    tree.Reaches k p ∧ tree.functions[k]? = some t ∧
      enterStep tree.symbols p (t, ⟨k⟩) = .error e := by
  rcases declaring_or_declares h with hdeclaring | ⟨fs, gs, hdeclares⟩
  · exact .inl hdeclaring
  · exact .inr ((resolve_error_iff hdeclares).mp h)

end ProgramTree

end QirProfile.Assembly
