import QirProfile.Proofs.Assembly.Entering
import QirProfile.Proofs.Assembly.ReadingInstructions
import QirProfile.Proofs.Program.Uses

/-!
# Symbols and what they stand for

A `Spelling` writes values as terms; `Names` gives terms back as values. `Spelling.Resolves` says
that the names undo the spelling, `Spelling.Reaches` that every value which the names give out has
a symbol in the spelling.
-/

namespace QirProfile.Assembly

variable {v : Value} {ty source t : Ty} {vs : List Value} {p : Program} {i : Instr}

/-! ## 1. From values to terms and back -/

namespace Spelling

/-- The names give every value that has a symbol back from it. -/
structure Resolves (sp : Spelling) (names : Names) : Prop where
  types : names.program.namedTypes = sp.program.namedTypes
  instr : ∀ id s, sp.symbol (.instr id) = some s → names.local s = .ok (.instr id)
  arg : ∀ f i s, sp.symbol (.arg f i) = some s → names.local s = .ok (.arg f i)
  func : ∀ f : FuncId, f.index < sp.program.functions.size → Recovers (sp.program.func f).name →
    names.global (globalSymbol (sp.program.func f).name) = .ok (.func f)
  global : ∀ g : GlobalId, g.index < sp.program.globals.size →
    Recovers (sp.program.global g).name →
    names.global (globalSymbol (sp.program.global g).name) = .ok (.global g)

variable {sp : Spelling} {names : Names} {scope : Scope}

theorem local_symbolOf (h : ∀ s, sp.symbol v = some s → names.local s = .ok v)
    (hv : sp.HasSymbol v) : names.local (sp.symbolOf v) = .ok v := by
  obtain ⟨s, hs, -⟩ := hv
  rw [symbolOf, hs]
  exact h s hs

theorem resolve_int {bits : Nat} {v : Int} (h : isRead ty bits v) :
    resolveTerm names ty (if bits = 1 then .bool (v != 0) else .int v) = .ok (.int bits v) := by
  rcases h with ⟨rfl, rfl | rfl⟩ | ⟨hbits, rfl, hsigned, hnorm⟩
  · rfl
  · rfl
  · simp only [hbits, if_false, resolveTerm, payload, hsigned, Bool.true_or, if_true]
    change Except.ok (Value.int _ (Word.normalize (Word.normalize v 64) _)) = _
    rw [hnorm]

mutual

theorem resolveTerm_term (h : sp.Resolves names) : (ty : Ty) → (v : Value) → sp.Prints ty v →
    resolveTerm names ty (sp.term v) = .ok v
  | _, .instr id, hv => by
    simp only [Prints] at hv
    simp only [term, resolveTerm]
    exact local_symbolOf (h.instr id) hv
  | _, .arg f i, hv => by
    simp only [Prints] at hv
    simp only [term, resolveTerm]
    exact local_symbolOf (h.arg f i) hv
  | _, .block b, hv => by simp only [Prints] at hv
  | _, .func f, hv => by
    simp only [Prints] at hv
    simp only [term, resolveTerm]
    exact h.func f hv.1 hv.2
  | _, .global g, hv => by
    simp only [Prints] at hv
    simp only [term, resolveTerm]
    exact h.global g hv.1 hv.2
  | _, .int bits v, hv => by
    simp only [Prints] at hv
    simp only [term]
    exact resolve_int hv
  | _, .float _ _, hv | _, .null _, hv | _, .undef _, hv | _, .zero _, hv => by
    simp only [Prints] at hv
    subst hv
    simp only [term, resolveTerm]
    rfl
  | _, .bytes _, _ => by
    simp only [term, resolveTerm]
    rfl
  | _, .array _ vs, hv => by
    simp only [Prints] at hv
    obtain ⟨rfl, hvs⟩ := hv
    simp only [term, resolveTerm, resolveAll_terms h vs hvs]
    rfl
  | _, .struct _ vs, hv => by
    simp only [Prints] at hv
    obtain ⟨rfl, hvs⟩ := hv
    simp only [term, resolveTerm, resolveAll_terms h vs hvs]
    rfl
  | _, .cast _ v _, hv => by
    simp only [Prints] at hv
    simp only [term, resolveTerm, resolveTyped, resolveTerm_term h _ v hv.1.2]
    rfl
  | _, .gep _ source base indices ty, hv => by
    simp only [Prints] at hv
    obtain ⟨-, hbase, hindices, rfl⟩ := hv
    simp only [term, resolveTerm, resolveTyped, resolveTerm_term h _ base hbase.2,
      resolveAll_terms h indices hindices, gepTy_congr h.types]
    rfl

theorem resolveAll_terms (h : sp.Resolves names) : (vs : List Value) → sp.AllPrint vs →
    resolveAll names (sp.terms vs) = .ok vs
  | [], _ => by simp only [terms, resolveAll]
  | v :: vs, hvs => by
    simp only [AllPrint] at hvs
    simp only [terms, resolveAll, resolveTyped, resolveTerm_term h _ v hvs.1.2,
      resolveAll_terms h vs hvs.2]
    rfl

end

theorem resolveTyped_typed (h : sp.Resolves names) (hv : sp.PrintsTyped v) :
    resolveTyped names (sp.typed v) = .ok v := by
  simp only [typed, resolveTyped]
  exact resolveTerm_term h _ v hv.2

theorem resolveAll_of_printsTyped (h : sp.Resolves names)
    (hvs : ∀ v ∈ vs, sp.PrintsTyped v) : resolveAll names (sp.terms vs) = .ok vs :=
  resolveAll_terms h vs (allPrint_iff.mpr hvs)

/-! ## 2. From instructions to operations and back -/

/-- The labels of a scope give every block that has a symbol back from it. -/
def ResolvesBlocks (sp : Spelling) (scope : Scope) : Prop :=
  ∀ b s, sp.symbol (.block b) = some s → scope.block s = .ok b

theorem block_symbolOf (h : sp.ResolvesBlocks scope) {b : BlockId} (hb : sp.HasSymbol (.block b)) :
    scope.block (sp.symbolOf (.block b)) = .ok b := by
  obtain ⟨s, hs, -⟩ := hb
  rw [symbolOf, hs]
  exact h b s hs

theorem mapM_switchCase (h : sp.Resolves names) (hblocks : sp.ResolvesBlocks scope)
    {cases : List (Value × BlockId)}
    (hcases : ∀ x ∈ cases, sp.PrintsTyped x.1 ∧ sp.HasSymbol (.block x.2)) :
    (cases.map sp.switchCase).mapM (fun (x : TypedTerm × Symbol) => do
        let value ← resolveTyped names x.1
        return [value, .block (← scope.block x.2)]) =
      .ok (cases.map fun x => [x.1, .block x.2]) := by
  induction cases with
  | nil => rfl
  | cons x cases ih =>
    obtain ⟨hvalue, hdest⟩ := hcases x List.mem_cons_self
    rw [List.map_cons, List.mapM_cons, ih fun y hy => hcases y (List.mem_cons_of_mem x hy)]
    simp only [switchCase, resolveTyped_typed h hvalue, block_symbolOf hblocks hdest]
    rfl

theorem mapM_incoming (h : sp.Resolves names) (hblocks : sp.ResolvesBlocks scope)
    {pairs : List (Value × BlockId)}
    (hpairs : ∀ x ∈ pairs, sp.Prints ty x.1 ∧ sp.HasSymbol (.block x.2)) :
    (pairs.map sp.incoming).mapM (fun (x : Term × Symbol) => do
        let value ← resolveTerm names ty x.1
        return (value, ← scope.block x.2)) = .ok pairs := by
  induction pairs with
  | nil => rfl
  | cons x pairs ih =>
    obtain ⟨hvalue, hblock⟩ := hpairs x List.mem_cons_self
    rw [List.map_cons, List.mapM_cons, ih fun y hy => hpairs y (List.mem_cons_of_mem x hy)]
    simp only [incoming, resolveTerm_term h _ _ hvalue, block_symbolOf hblocks hblock]
    rfl

variable {i : Instr} {op : Operation}

theorem operands_of_renders (h : sp.Resolves names) (hblocks : sp.ResolvesBlocks scope)
    (hop : sp.Renders i op) : op.operands names scope = .ok (i.operands, i.phiBlocks) := by
  cases hop with
  | retVoid hkind hty hops =>
    simp only [Operation.operands, hops, Instr.phiBlocks, hkind]
    rfl
  | ret hkind hty hops hv hlead =>
    simp only [Operation.operands, resolveTyped_typed h hv, hops, Instr.phiBlocks, hkind]
    rfl
  | br hkind hty hops hdest =>
    simp only [Operation.operands, block_symbolOf hblocks hdest, hops, Instr.phiBlocks, hkind]
    rfl
  | condBr hkind hty hops hcond hlead hfalse htrue =>
    simp only [Operation.operands, resolveTyped_typed h hcond, block_symbolOf hblocks hfalse,
      block_symbolOf hblocks htrue, hops, Instr.phiBlocks, hkind]
    rfl
  | switch hkind hty hops hcond hdefault hcases =>
    simp only [Operation.operands, resolveTyped_typed h hcond, block_symbolOf hblocks hdefault,
      mapM_switchCase h hblocks hcases, hops, Instr.phiBlocks, hkind]
    rfl
  | unreachable hkind hty hops =>
    simp only [Operation.operands, hops, Instr.phiBlocks, hkind]
    rfl
  | call hkind hops hcall =>
    simp only [Operation.operands, resolveAll_of_printsTyped h hcall.args,
      resolveTerm_term h _ _ hcall.head, hops, Instr.phiBlocks, hkind]
    rfl
  | invoke hkind hops hcall hnormal hunwind =>
    simp only [Operation.operands, resolveAll_of_printsTyped h hcall.args,
      resolveTerm_term h _ _ hcall.head, block_symbolOf hblocks hnormal,
      block_symbolOf hblocks hunwind, hops, Instr.phiBlocks, hkind]
    rfl
  | binary hkind hops hfits hlhs hrhs =>
    simp only [Operation.operands, resolveTerm_term h _ _ hlhs, resolveTerm_term h _ _ hrhs, hops,
      Instr.phiBlocks, hkind]
    rfl
  | icmp hkind hty hops hlhs hrhs =>
    simp only [Operation.operands, resolveTerm_term h _ _ hlhs.2, resolveTerm_term h _ _ hrhs,
      hops, Instr.phiBlocks, hkind]
    rfl
  | cast hkind hops hv hfits =>
    simp only [Operation.operands, resolveTyped_typed h hv, hops, Instr.phiBlocks, hkind]
    rfl
  | load hkind hops hfits hptr halign =>
    simp only [Operation.operands, resolveTyped_typed h hptr, hops, Instr.phiBlocks, hkind]
    rfl
  | store hkind hty hops hvalue hptr halign =>
    simp only [Operation.operands, resolveAll, resolveTyped_typed h hvalue,
      resolveTyped_typed h hptr, hops, Instr.phiBlocks, hkind]
    rfl
  | alloca hkind hty hops hfits halign =>
    simp only [Operation.operands, hops, Instr.phiBlocks, hkind]
    rfl
  | gep hkind hty hops hfits hbase hindices =>
    simp only [Operation.operands, resolveAll, resolveTyped_typed h hbase,
      resolveAll_of_printsTyped h hindices, hops, Instr.phiBlocks, hkind]
    rfl
  | select hkind hty hops hcond htrue hfalse =>
    simp only [Operation.operands, resolveAll, resolveTyped_typed h hcond,
      resolveTyped_typed h htrue, resolveTyped_typed h hfalse, hops, Instr.phiBlocks, hkind]
    rfl
  | phi hkind hops hne hfits hpairs =>
    simp only [Operation.operands, mapM_incoming h hblocks hpairs, hops, Instr.phiBlocks, hkind]
    rfl

theorem fills_of_renders (htypes : p.namedTypes = sp.program.namedTypes)
    (h : sp.Resolves names) (hblocks : sp.ResolvesBlocks scope) (hop : sp.Renders i op)
    (b : BlockId) (result : Option Symbol) (line : Nat) :
    Fills p names scope (b, ⟨result, op, line⟩)
      { i with name := result.bind Symbol.name?, parent := some b, erased := false } := by
  refine ⟨_, operands_of_renders h hblocks hop, ?_⟩
  cases hop with
  | phi hkind =>
    simp only [fillNode, instrNode, Operation.kindAndTy, Instr.phiBlocks, hkind]
  | gep hkind hty =>
    simp only [fillNode, instrNode, Operation.kindAndTy, hkind, gepTy_congr htypes, ← hty]
  | call hkind | invoke hkind | binary hkind | cast hkind | load hkind =>
    simp only [fillNode, instrNode, Operation.kindAndTy, hkind]
  | select hkind hty =>
    simp only [fillNode, instrNode, Operation.kindAndTy, hkind, hty, typed, TypedTerm.ty]
  | retVoid hkind hty | ret hkind hty | br hkind hty | condBr hkind hty | switch hkind hty
  | unreachable hkind hty | icmp hkind hty | store hkind hty | alloca hkind hty =>
    simp only [fillNode, instrNode, Operation.kindAndTy, hkind, hty]

/-! ## 3. Values that were resolved -/

/-- Every value that the names give out has a symbol in the spelling, void results apart, and its
    type can be read back. -/
structure Reaches (sp : Spelling) (names : Names) : Prop where
  types : names.program.namedTypes = sp.program.namedTypes
  bodies : ∀ x ∈ sp.program.namedTypes, ∀ t ∈ x.2, t.Fits
  locals : ∀ s v, names.local s = .ok v → (sp.program.valueTy v).Fits ∧
    ((∃ id, v = .instr id ∧ ((sp.program.instr id).ty ≠ .void → sp.HasSymbol v)) ∨
      ∃ f i, v = .arg f i ∧ sp.HasSymbol v)
  globals : ∀ s v, names.global s = .ok v → (sp.program.valueTy v).Fits ∧
    ((∃ f, v = .func f ∧ f.index < sp.program.functions.size ∧
        Recovers (sp.program.func f).name) ∨
      ∃ g, v = .global g ∧ g.index < sp.program.globals.size ∧
        Recovers (sp.program.global g).name)

end Spelling

/-- No void result occurs in the value, and no byte string that is too long for a type. -/
structure Clean (p : Program) (v : Value) : Prop where
  void : ∀ id, Value.mentions (.instr id) v = true → (p.instr id).ty ≠ .void
  bytes : ∀ data, Value.mentions (.bytes data) v = true → data.length < span 64

section

variable {p : Program} {v w : Value} {vs : List Value} {ty : Ty}

theorem Clean.of_mentions (h : Clean p v)
    (hsub : ∀ needle, Value.mentions needle w = true → Value.mentions needle v = true) :
    Clean p w :=
  ⟨fun id hid => h.void id (hsub _ hid), fun data hdata => h.bytes data (hsub _ hdata)⟩

theorem Clean.of_array (h : Clean p (.array ty vs)) (hw : w ∈ vs) : Clean p w :=
  h.of_mentions fun needle hn => by
    simp only [Value.mentions, Value.mentionsAny_eq, Bool.or_eq_true, List.any_eq_true]
    exact .inr ⟨w, hw, hn⟩

theorem Clean.of_struct (h : Clean p (.struct ty vs)) (hw : w ∈ vs) : Clean p w :=
  h.of_mentions fun needle hn => by
    simp only [Value.mentions, Value.mentionsAny_eq, Bool.or_eq_true, List.any_eq_true]
    exact .inr ⟨w, hw, hn⟩

theorem Clean.of_cast {op : CastOp} (h : Clean p (.cast op v ty)) : Clean p v :=
  h.of_mentions fun needle hn => by
    simp only [Value.mentions, hn, Bool.or_true]

theorem Clean.of_gep {inbounds : Bool} (h : Clean p (.gep inbounds source v vs ty)) :
    Clean p v ∧ ∀ w ∈ vs, Clean p w := by
  constructor
  · refine h.of_mentions fun needle hn => ?_
    simp only [Value.mentions, hn, Bool.or_true, Bool.true_or]
  · intro w hw
    refine h.of_mentions fun needle hn => ?_
    simp only [Value.mentions, Value.mentionsAny_eq, Bool.or_eq_true, List.any_eq_true]
    exact .inr ⟨w, hw, hn⟩

theorem Clean.not_void {id : InstrId} (h : Clean p (.instr id)) : (p.instr id).ty ≠ .void :=
  h.void id (by simp [Value.mentions])

theorem Clean.short {data : List UInt8} (h : Clean p (.bytes data)) : data.length < span 64 :=
  h.bytes data (by simp [Value.mentions])

end

/-! ## 4. Types of resolved values -/

theorem fits_selectField {index : Value} {fields : List Ty} (hfields : Ty.AllFit fields)
    (h : Program.selectField? index fields = some t) : t.Fits := by
  rw [Ty.allFit_iff] at hfields
  simp only [Program.selectField?, Option.bind_eq_bind, Option.bind_eq_some_iff] at h
  obtain ⟨k, -, hk⟩ := h
  split at hk
  · exact hfields t (List.mem_of_getElem? hk)
  · cases hk

theorem fits_stepInto (hbodies : ∀ x ∈ p.namedTypes, ∀ t ∈ x.2, t.Fits)
    {index : Value} (hty : ty.Fits) (h : p.stepInto? ty index = some t) : t.Fits := by
  unfold Program.stepInto? at h
  split at h
  · cases h
    simp only [Ty.Fits] at hty
    exact hty.2
  · simp only [Ty.Fits] at hty
    exact fits_selectField hty h
  · split at h
    case h_1 name fields hbody =>
      simp only [Program.namedTypeBody?, Option.bind_eq_some_iff] at hbody
      obtain ⟨x, hx, hfields⟩ := hbody
      have hfits := hbodies x (List.mem_of_find?_eq_some hx) (.struct fields) hfields
      simp only [Ty.Fits] at hfits
      exact fits_selectField hfits h
    case h_2 => cases h
  · cases h

theorem fits_gepTy (hbodies : ∀ x ∈ p.namedTypes, ∀ t ∈ x.2, t.Fits)
    (hsource : source.Fits) (indices : List Value) : (p.gepTy source indices).Fits := by
  have hwalk : ∀ (vs : List Value) (ty : Ty), ty.Fits → (p.walkIndices ty vs).Fits := by
    intro vs
    induction vs with
    | nil => exact fun ty hty => hty
    | cons v vs ih =>
      intro ty hty
      unfold Program.walkIndices
      split
      case h_1 next hnext => exact ih next (fits_stepInto hbodies hty hnext)
      case h_2 => exact hty
  simp only [Program.gepTy, Ty.Fits]
  exact hwalk _ source hsource

theorem word_bits (width : Nat) : 1 ≤ Word.bits width ∧ Word.bits width ≤ 64 := by
  unfold Word.bits
  split <;> omega

theorem span_pos (n : Nat) : 0 < span n := Nat.pow_pos (by decide)

theorem isSigned_normalize (v : Int) (width : Nat) :
    Word.isSigned (Word.normalize v width) = true := by
  have hpos := span_pos (Word.bits width)
  have hle : span (Word.bits width) ≤ span 64 :=
    Nat.pow_le_pow_right (by decide) (word_bits width).2
  have hlow := Int.le_bmod (x := v) hpos
  have hhigh := Int.bmod_lt (x := v) hpos
  have h64 : span 64 = 18446744073709551616 := rfl
  have h63 : (span 63 : Int) = 9223372036854775808 := rfl
  simp only [Word.isSigned, Bool.and_eq_true, decide_eq_true_eq]
  unfold Word.least Word.greatest Word.normalize
  omega

theorem normalize_normalize (v : Int) (width : Nat) :
    Word.normalize (Word.normalize v 64) width = Word.normalize v width := by
  have hdvd : span (Word.bits width) ∣ span (Word.bits 64) :=
    Nat.pow_dvd_pow 2 (word_bits width).2
  exact Int.bmod_bmod_of_dvd hdvd

theorem normalize_one (v : Int) : Word.normalize v 1 = 0 ∨ Word.normalize v 1 = -1 := by
  have hlow := Int.le_bmod (x := v) (m := 2) (by decide)
  have hhigh := Int.bmod_lt (x := v) (m := 2) (by decide)
  change Int.bmod v 2 = 0 ∨ Int.bmod v 2 = -1
  omega

theorem isRead_ofInt (ty : Ty) (v : Int) : Spelling.isRead ty (ty.width?.getD 64)
    (Word.normalize (Word.normalize v 64) (ty.width?.getD 64)) := by
  rw [normalize_normalize]
  by_cases hone : ty.width?.getD 64 = 1
  · rw [hone]
    exact .inl ⟨rfl, normalize_one v⟩
  · refine .inr ⟨hone, rfl, isSigned_normalize v _, ?_⟩
    rw [normalize_normalize]
    exact Int.bmod_bmod

theorem fits_width (h : ty.Fits) : (Ty.int (ty.width?.getD 64)).Fits := by
  cases ty with
  | int bits => exact h
  | _ => simp only [Ty.width?, Option.getD_none, Ty.Fits]; decide

namespace Spelling

variable {sp : Spelling} {names : Names}

theorem prints_valueTy (h : sp.Prints ty v) :
    sp.Prints (sp.program.valueTy v) v := by
  cases v with
  | int bits v =>
    simp only [Prints] at h ⊢
    rcases h with h | ⟨hbits, -, hsigned, hnorm⟩
    · exact .inl h
    · exact .inr ⟨hbits, rfl, hsigned, hnorm⟩
  | float | null | undef | zero => simp only [Prints, Program.valueTy, Value.constantTy]
  | array t vs | struct t vs =>
    simp only [Prints, Program.valueTy, Value.constantTy, true_and] at h ⊢
    exact h.2
  | block => simp only [Prints] at h
  | bytes => simp only [Prints]
  | _ =>
    simp only [Prints] at h ⊢
    exact h

mutual

theorem prints_resolved (h : sp.Reaches names) : (ty : Ty) → (t : Term) → (v : Value) → ty.Fits →
    t.Fits → Clean sp.program v → resolveTerm names ty t = .ok v →
    sp.Prints ty v ∧ (sp.program.valueTy v).Fits
  | ty, .local s, v, hty, _, hclean, heq => by
    simp only [resolveTerm] at heq
    obtain ⟨hfits, ⟨id, rfl, hsymbol⟩ | ⟨f, i, rfl, hsymbol⟩⟩ := h.locals s v heq
    · simp only [Prints]
      exact ⟨hsymbol hclean.not_void, hfits⟩
    · simp only [Prints]
      exact ⟨hsymbol, hfits⟩
  | ty, .global s, v, hty, _, _, heq => by
    simp only [resolveTerm] at heq
    obtain ⟨hfits, ⟨f, rfl, hname⟩ | ⟨g, rfl, hname⟩⟩ := h.globals s v heq
    · simp only [Prints]
      exact ⟨hname, hfits⟩
    · simp only [Prints]
      exact ⟨hname, hfits⟩
  | ty, .int x, v, hty, _, _, heq => by
    simp only [resolveTerm, except_bind_ok] at heq
    obtain ⟨y, hy, heq⟩ := heq
    cases heq
    obtain rfl : Word.normalize x 64 = y := by
      unfold payload at hy
      split at hy <;> cases hy
      rfl
    simp only [Value.ofInt, Prints, Program.valueTy, Value.constantTy]
    exact ⟨isRead_ofInt ty x, fits_width hty⟩
  | ty, .bool b, v, _, _, _, heq => by
    simp only [resolveTerm] at heq
    cases heq
    simp only [Value.ofBool, Value.ofInt, Prints, Program.valueTy, Value.constantTy, Ty.Fits]
    exact ⟨.inl ⟨rfl, normalize_one _⟩, by decide⟩
  | ty, .float _, v, hty, _, _, heq | ty, .null, v, hty, _, _, heq
  | ty, .undef, v, hty, _, _, heq | ty, .zero, v, hty, _, _, heq => by
    simp only [resolveTerm] at heq
    cases heq
    simp only [Prints, Program.valueTy, Value.constantTy, true_and]
    exact hty
  | ty, .bytes data, v, _, _, hclean, heq => by
    simp only [resolveTerm] at heq
    cases heq
    simp only [Prints, Program.valueTy, Value.constantTy, Ty.Fits, true_and]
    exact ⟨hclean.short, by decide⟩
  | ty, .array ts, v, hty, hts, hclean, heq => by
    simp only [resolveTerm, except_bind_ok] at heq
    obtain ⟨vs, hvs, heq⟩ := heq
    cases heq
    simp only [Term.Fits] at hts
    simp only [Prints, Program.valueTy, Value.constantTy, true_and]
    exact ⟨allPrint_resolved h ts vs hts (fun w hw => hclean.of_array hw) hvs, hty⟩
  | ty, .struct ts, v, hty, hts, hclean, heq => by
    simp only [resolveTerm, except_bind_ok] at heq
    obtain ⟨vs, hvs, heq⟩ := heq
    cases heq
    simp only [Term.Fits] at hts
    simp only [Prints, Program.valueTy, Value.constantTy, true_and]
    exact ⟨allPrint_resolved h ts vs hts (fun w hw => hclean.of_struct hw) hvs, hty⟩
  | ty, .cast op t target, v, _, ht, hclean, heq => by
    simp only [resolveTerm, except_bind_ok] at heq
    obtain ⟨w, hw, heq⟩ := heq
    cases heq
    simp only [Term.Fits] at ht
    simp only [Prints, Program.valueTy, Value.constantTy]
    exact ⟨⟨printsTyped_resolved h t w ht.1 hclean.of_cast hw, ht.2⟩, ht.2⟩
  | ty, .gep inbounds source base ts, v, _, ht, hclean, heq => by
    simp only [resolveTerm, except_bind_ok] at heq
    obtain ⟨vs, hvs, w, hw, heq⟩ := heq
    cases heq
    simp only [Term.Fits] at ht
    obtain ⟨hbase, hindices⟩ := hclean.of_gep
    simp only [Prints, Program.valueTy, Value.constantTy, gepTy_congr h.types, and_true]
    exact ⟨⟨ht.1, printsTyped_resolved h base w ht.2.1 hbase hw,
      allPrint_resolved h ts vs ht.2.2 hindices hvs⟩, fits_gepTy h.bodies ht.1 vs⟩

theorem printsTyped_resolved (h : sp.Reaches names) : (t : TypedTerm) → (v : Value) → t.Fits →
    Clean sp.program v → resolveTyped names t = .ok v → sp.PrintsTyped v
  | .mk ty t, v, ht, hclean, heq => by
    simp only [TypedTerm.Fits] at ht
    simp only [resolveTyped] at heq
    obtain ⟨hprints, hfits⟩ := prints_resolved h ty t v ht.1 ht.2 hclean heq
    exact ⟨hfits, prints_valueTy hprints⟩

theorem allPrint_resolved (h : sp.Reaches names) : (ts : List TypedTerm) → (vs : List Value) →
    TypedTerm.AllFit ts → (∀ v ∈ vs, Clean sp.program v) → resolveAll names ts = .ok vs →
    sp.AllPrint vs
  | [], vs, _, _, heq => by
    simp only [resolveAll] at heq
    cases heq
    simp only [AllPrint]
  | t :: ts, vs, hts, hclean, heq => by
    simp only [resolveAll, except_bind_ok] at heq
    obtain ⟨w, hw, ws, hws, heq⟩ := heq
    cases heq
    simp only [TypedTerm.AllFit] at hts
    simp only [AllPrint]
    exact ⟨printsTyped_resolved h t w hts.1 (hclean w List.mem_cons_self) hw,
      allPrint_resolved h ts ws hts.2 (fun x hx => hclean x (List.mem_cons_of_mem w hx)) hws⟩

end

end Spelling

/-! ## 5. Instructions that were read -/

/-- The types that an operation writes for its operands, in their order. A callee has none. -/
def Operation.writtenTys : Operation → List Ty
  | .ret none | .unreachable | .alloca _ _ => []
  | .ret (some value) => [value.ty]
  | .br _ => [.label]
  | .condBr cond _ _ => [cond.ty, .label, .label]
  | .switch cond _ cases => cond.ty :: .label :: cases.flatMap fun x => [x.1.ty, .label]
  | .call _ _ _ args => args.map TypedTerm.ty
  | .invoke _ _ args _ _ => args.map TypedTerm.ty ++ [.label, .label]
  | .binary _ ty _ _ | .icmp _ ty _ _ => [ty, ty]
  | .cast _ value _ => [value.ty]
  | .load _ ptr _ => [ptr.ty]
  | .store value ptr _ => [value.ty, ptr.ty]
  | .gep _ _ base indices => base.ty :: indices.map TypedTerm.ty
  | .select cond ifTrue ifFalse => [cond.ty, ifTrue.ty, ifFalse.ty]
  | .phi ty incoming => incoming.map fun _ => ty

/-- An instruction is well typed: every operand has the type written for it, a call has the result
    type of its callee, and no operand is a void result. -/
structure WellTyped (p : Program) (written : List Ty) (i : Instr) : Prop where
  operands : ∀ x ∈ written.zip i.operands, p.valueTy x.2 = x.1
  result : ∀ f, i.calledFunction? = some f → i.ty = (p.func f).ret
  void : ∀ v ∈ i.operands, ∀ id, Value.mentions (.instr id) v = true → (p.instr id).ty ≠ .void

/-- An index as far as it counts where it is written: a constant of one bit is written as a truth
    value, which selects no field. -/
def asIndex : Value → Value
  | .int 1 _ => .undef (.int 1)
  | v => v

/-- What an instruction must not be so that its text keeps its type: a call with a function type
    as its result, unless the whole type of a variadic callee is written, and an address whose
    type depends on a truth value. -/
structure KeepsType (p : Program) (i : Instr) : Prop where
  call : i.isCall = true ∨ i.isInvoke = true → i.ty.callResult = i.ty ∨
    ∃ f, i.calledFunction? = some f ∧ (p.func f).varArg = true
  gep : ∀ source inbounds, i.kind = .gep source inbounds →
    i.ty = p.gepTy source (i.operands.tail.map asIndex)

theorem mapM_ok {α β ε : Type} {f : α → Except ε β} {xs : List α} : ∀ {ys : List β},
    xs.mapM f = .ok ys ↔ List.Forall₂ (fun x y => f x = .ok y) xs ys := by
  induction xs with
  | nil =>
    intro ys
    rw [List.mapM_nil, List.forall₂_nil_left_iff]
    constructor
    · intro h
      cases h
      rfl
    · rintro rfl
      rfl
  | cons x xs ih =>
    intro ys
    simp only [List.mapM_cons, except_bind_ok, List.forall₂_cons_left_iff]
    constructor
    · rintro ⟨y, hy, zs, hzs, h⟩
      cases h
      exact ⟨y, zs, hy, ih.mp hzs, rfl⟩
    · rintro ⟨y, zs, hy, hzs, rfl⟩
      exact ⟨y, hy, zs, ih.mpr hzs, rfl⟩

theorem walkIndices_congr {ws : List Value}
    (h : List.Forall₂ (fun v w => Value.toInt? v = Value.toInt? w) vs ws) :
    ∀ ty, p.walkIndices ty vs = p.walkIndices ty ws := by
  induction h with
  | nil => exact fun ty => rfl
  | @cons v w vs ws hvw hrest ih =>
    intro ty
    have hstep : p.stepInto? ty v = p.stepInto? ty w := by
      simp only [Program.stepInto?, Program.selectField?, hvw]
    simp only [Program.walkIndices, hstep]
    split
    · exact ih _
    · rfl

namespace Spelling

variable {sp : Spelling} {names : Names} {scope : Scope}

theorem toInt_staticIndex (h : sp.PrintsTyped v) :
    (staticIndex (sp.typed v)).toInt? = (asIndex v).toInt? := by
  cases v with
  | int bits x =>
    obtain ⟨-, hread⟩ := h
    simp only [Prints] at hread
    rcases hread with ⟨rfl, -⟩ | ⟨hbits, -, hsigned, hnorm⟩
    · simp [staticIndex, typed, term, asIndex, TypedTerm.term, TypedTerm.ty, Value.toInt?]
    · have : asIndex (.int bits x) = .int bits x := by
        unfold asIndex
        split
        case h_1 heq => cases heq; exact absurd rfl hbits
        case h_2 => rfl
      simp [staticIndex, typed, term, this, TypedTerm.term, TypedTerm.ty, Value.toInt?, hbits,
        Program.valueTy, Value.constantTy, Ty.width?, payload, hsigned, Value.ofInt, hnorm,
        Except.toOption]
  | _ =>
    simp [staticIndex, typed, term, asIndex, TypedTerm.term, Value.toInt?]

theorem gepTy_staticIndex {indices : List Value}
    (h : ∀ v ∈ indices, sp.PrintsTyped v) :
    sp.program.gepTy source ((sp.terms indices).map staticIndex) =
      sp.program.gepTy source (indices.map asIndex) := by
  rw [Program.gepTy, Program.gepTy, walkIndices_congr]
  apply List.forall₂_drop
  rw [terms_eq_map, List.map_map, List.forall₂_map_left_iff, List.forall₂_map_right_iff,
    List.forall₂_same]
  exact fun v hv => toInt_staticIndex (h v hv)

theorem fits_callResult (h : t.Fits) : t.callResult.Fits := by
  cases t with
  | func r ts varArg =>
    simp only [Ty.Fits] at h
    exact h.1
  | _ => exact h

theorem callPrints_of_resolved (h : sp.Reaches names)
    (hsig : ∀ f, (sp.program.func f).signature.ty.Fits) {written result : Ty}
    {callee : Term} {args : List TypedTerm}
    (hwritten : written.Fits ∧ written.callResult = result ∧ callee.Fits ∧ ∀ t ∈ args, t.Fits)
    (hargs : resolveAll names args = .ok vs) (hcallee : resolveTerm names .void callee = .ok v)
    (hclean : (∀ w ∈ vs, Clean sp.program w) ∧ Clean sp.program v) (hty : i.ty = result)
    (hi : i.callee? = some v)
    (hresult : ∀ f, i.calledFunction? = some f → i.ty = (sp.program.func f).ret)
    (hkeeps : i.ty.callResult = i.ty ∨
      ∃ f, i.calledFunction? = some f ∧ (sp.program.func f).varArg = true) :
    sp.CallPrints i.ty v vs := by
  obtain ⟨hfits, hback, hterm, hall⟩ := hwritten
  have hresultFits : i.ty.Fits := by
    rw [hty, ← hback]
    exact fits_callResult hfits
  have hvoid : Ty.void.Fits := by simp only [Ty.Fits]
  obtain ⟨hhead, -⟩ := prints_resolved h .void callee v hvoid hterm hclean.2 hcallee
  have hvs := allPrint_resolved h args vs (TypedTerm.allFit_iff.mpr hall) hclean.1 hargs
  have hcalled : i.calledFunction? = v.toFunc? := by rw [Instr.calledFunction?, hi]; rfl
  -- The written type is the signature of a variadic function, or the result type.
  have htype : (sp.writtenTy v i.ty = i.ty ∧ i.ty.callResult = i.ty) ∨
      ∃ f, v.toFunc? = some f ∧ sp.writtenTy v i.ty = (sp.program.func f).signature.ty := by
    cases hf : v.toFunc? with
    | none =>
      refine .inl ⟨by simp [writtenTy, hf], ?_⟩
      rcases hkeeps with hkeeps | ⟨f, hcall, -⟩
      · exact hkeeps
      · rw [hcalled, hf] at hcall
        cases hcall
    | some f =>
      by_cases hvar : (sp.program.func f).varArg = true
      · exact .inr ⟨f, rfl, by simp [writtenTy, hf, Func.signature, hvar]⟩
      · refine .inl ⟨by simp [writtenTy, hf, Func.signature, hvar], ?_⟩
        rcases hkeeps with hkeeps | ⟨g, hcall, hg⟩
        · exact hkeeps
        · rw [hcalled, hf] at hcall
          cases hcall
          exact absurd hg hvar
  refine ⟨hhead, allPrint_iff.mp hvs, ?_, ?_⟩
  · rcases htype with ⟨heq, -⟩ | ⟨f, -, heq⟩
    · rw [heq]
      exact hresultFits
    · rw [heq]
      exact hsig f
  · rcases htype with ⟨heq, hres⟩ | ⟨f, hf, heq⟩
    · rw [heq, hres]
    · rw [heq, hresult f (by rw [hcalled, hf])]
      rfl

theorem cases_of_resolved (h : sp.Reaches names)
    (hblocks : ∀ s b, scope.block s = .ok b → sp.HasSymbol (.block b))
    {cases : List (TypedTerm × Symbol)} {css : List (List Value)}
    (hcss : List.Forall₂ (fun (x : TypedTerm × Symbol) vs => (do
        let value ← resolveTyped names x.1
        return [value, .block (← scope.block x.2)]) = Except.ok vs) cases css)
    (hfits : ∀ x ∈ cases, x.1.Fits) (hclean : ∀ v ∈ css.flatten, Clean sp.program v) :
    ∃ pairs : List (Value × BlockId), css = (pairs.map fun x => [x.1, .block x.2]) ∧
      ∀ x ∈ pairs, sp.PrintsTyped x.1 ∧ sp.HasSymbol (.block x.2) := by
  induction hcss with
  | nil => exact ⟨[], rfl, by simp⟩
  | @cons x vs cases css hx hrest ih =>
    obtain ⟨pairs, rfl, hpairs⟩ := ih (fun y hy => hfits y (List.mem_cons_of_mem x hy))
      (fun v hv => hclean v (by rw [List.flatten_cons]; exact List.mem_append_right _ hv))
    simp only [except_bind_ok] at hx
    obtain ⟨v, hv, c, hc, hx⟩ := hx
    cases hx
    have hprints := printsTyped_resolved h x.1 v (hfits x List.mem_cons_self)
      (hclean v (by simp)) hv
    refine ⟨(v, c) :: pairs, rfl, ?_⟩
    rintro y hy
    rcases List.mem_cons.mp hy with rfl | hy
    · exact ⟨hprints, hblocks _ _ hc⟩
    · exact hpairs y hy

theorem incoming_of_resolved (h : sp.Reaches names)
    (hblocks : ∀ s b, scope.block s = .ok b → sp.HasSymbol (.block b)) (hty : ty.Fits)
    {incoming : List (Term × Symbol)} {pairs : List (Value × BlockId)}
    (hpairs : List.Forall₂ (fun (x : Term × Symbol) y => (do
        let value ← resolveTerm names ty x.1
        return (value, ← scope.block x.2)) = Except.ok y) incoming pairs)
    (hfits : ∀ x ∈ incoming, x.1.Fits) (hclean : ∀ x ∈ pairs, Clean sp.program x.1) :
    ∀ x ∈ pairs, sp.Prints ty x.1 ∧ sp.HasSymbol (.block x.2) := by
  induction hpairs with
  | nil => simp
  | @cons x y incoming pairs hx hrest ih =>
    simp only [except_bind_ok] at hx
    obtain ⟨v, hv, c, hc, hx⟩ := hx
    cases hx
    intro z hz
    rcases List.mem_cons.mp hz with rfl | hz
    · exact ⟨(prints_resolved h ty x.1 v hty (hfits x List.mem_cons_self)
        (hclean _ List.mem_cons_self) hv).1, hblocks _ _ hc⟩
    · exact ih (fun y hy => hfits y (List.mem_cons_of_mem x hy))
        (fun y hy => hclean y (List.mem_cons_of_mem _ hy)) z hz

/-- An instruction that was read can be written. -/
theorem renders_of_fills (h : sp.Reaches names)
    (hblocks : ∀ s b, scope.block s = .ok b → sp.HasSymbol (.block b))
    (hsig : ∀ f, (sp.program.func f).signature.ty.Fits) {x : BlockId × InstrTree}
    {written : Ty} (hfills : Fills p names scope x i)
    (hreads : x.2.operation.Reads written) (htyped : WellTyped sp.program x.2.operation.writtenTys i)
    (hkeeps : KeepsType sp.program i) (hclean : ∀ v ∈ i.operands, Clean sp.program v) :
    ∃ op, sp.Renders i op := by
  obtain ⟨out, hout, rfl⟩ := hfills
  obtain ⟨b, result, op, line⟩ := x
  have hvoid : Ty.void.Fits := by simp only [Ty.Fits]
  cases op with
  | ret value =>
    cases value with
    | none =>
      cases hout
      exact ⟨_, .retVoid rfl rfl rfl⟩
    | some t =>
      simp only [Operation.operands, except_bind_ok] at hout
      obtain ⟨v, hv, hout⟩ := hout
      cases hout
      have hprints := printsTyped_resolved h t v hreads.1 (hclean v (by simp [fillNode])) hv
      have hty : sp.program.valueTy v = t.ty :=
        htyped.operands (t.ty, v) (by simp [Operation.writtenTys, fillNode])
      exact ⟨_, .ret rfl rfl rfl hprints (by rw [hty]; exact hreads.2)⟩
  | br dest =>
    simp only [Operation.operands, except_bind_ok] at hout
    obtain ⟨c, hc, hout⟩ := hout
    cases hout
    exact ⟨_, .br rfl rfl rfl (hblocks _ _ hc)⟩
  | condBr cond ifTrue ifFalse =>
    simp only [Operation.operands, except_bind_ok] at hout
    obtain ⟨v, hv, cf, hcf, ct, hct, hout⟩ := hout
    cases hout
    have hprints := printsTyped_resolved h cond v hreads.1 (hclean v (by simp [fillNode])) hv
    have hty : sp.program.valueTy v = cond.ty :=
      htyped.operands (cond.ty, v) (by simp [Operation.writtenTys, fillNode])
    exact ⟨_, .condBr rfl rfl rfl hprints (by rw [hty]; exact hreads.2) (hblocks _ _ hcf)
      (hblocks _ _ hct)⟩
  | switch cond default cases =>
    simp only [Operation.operands, except_bind_ok] at hout
    obtain ⟨v, hv, c, hc, css, hcss, hout⟩ := hout
    cases hout
    have hprints := printsTyped_resolved h cond v hreads.1 (hclean v (by simp [fillNode])) hv
    obtain ⟨pairs, rfl, hall⟩ := cases_of_resolved h hblocks (mapM_ok.mp hcss) hreads.2
      (fun w hw => hclean w (List.mem_cons_of_mem _ (List.mem_cons_of_mem _ hw)))
    exact ⟨_, .switch rfl rfl (by rw [← List.flatMap_def]; rfl) hprints (hblocks _ _ hc) hall⟩
  | unreachable =>
    cases hout
    exact ⟨_, .unreachable rfl rfl rfl⟩
  | call marker ret callee args =>
    simp only [Operation.operands, except_bind_ok] at hout
    obtain ⟨vs, hvs, v, hv, hout⟩ := hout
    cases hout
    have hparts := call_parts (i := fillNode (instrNode p b ⟨result, .call marker ret callee args,
      line⟩) (.call marker ret callee args) (vs ++ [v], [])) rfl rfl
    exact ⟨_, .call rfl rfl (callPrints_of_resolved h hsig hreads hvs hv
      ⟨fun w hw => hclean w (by simp [fillNode, hw]), hclean v (by simp [fillNode])⟩ rfl hparts.1
      htyped.result (hkeeps.call (.inl rfl)))⟩
  | invoke ret callee args normal unwind =>
    simp only [Operation.operands, except_bind_ok] at hout
    obtain ⟨vs, hvs, cn, hcn, cu, hcu, v, hv, hout⟩ := hout
    cases hout
    have hparts := invoke_parts (i := fillNode (instrNode p b ⟨result, .invoke ret callee args
      normal unwind, line⟩) (.invoke ret callee args normal unwind)
      (vs ++ [.block cn, .block cu, v], [])) rfl rfl
    exact ⟨_, .invoke rfl rfl (callPrints_of_resolved h hsig hreads hvs hv
      ⟨fun w hw => hclean w (by simp [fillNode, hw]), hclean v (by simp [fillNode])⟩ rfl hparts.1
      htyped.result (hkeeps.call (.inr rfl))) (hblocks _ _ hcn) (hblocks _ _ hcu)⟩
  | binary bop ty lhs rhs =>
    simp only [Operation.operands, except_bind_ok] at hout
    obtain ⟨v, hv, w, hw, hout⟩ := hout
    cases hout
    exact ⟨_, .binary rfl rfl hreads.1
      (prints_resolved h ty lhs v hreads.1 hreads.2.1 (hclean v (by simp [fillNode])) hv).1
      (prints_resolved h ty rhs w hreads.1 hreads.2.2 (hclean w (by simp [fillNode])) hw).1⟩
  | icmp pred ty lhs rhs =>
    simp only [Operation.operands, except_bind_ok] at hout
    obtain ⟨v, hv, w, hw, hout⟩ := hout
    cases hout
    obtain ⟨hl, hlfits⟩ :=
      prints_resolved h ty lhs v hreads.1 hreads.2.1 (hclean v (by simp [fillNode])) hv
    obtain ⟨hr, -⟩ :=
      prints_resolved h ty rhs w hreads.1 hreads.2.2 (hclean w (by simp [fillNode])) hw
    have hty : sp.program.valueTy v = ty :=
      htyped.operands (ty, v) (by simp [Operation.writtenTys, fillNode])
    exact ⟨_, .icmp rfl rfl rfl ⟨hlfits, prints_valueTy hl⟩ (by rw [hty]; exact hr)⟩
  | cast cop value target =>
    simp only [Operation.operands, except_bind_ok] at hout
    obtain ⟨v, hv, hout⟩ := hout
    cases hout
    exact ⟨_, .cast rfl rfl
      (printsTyped_resolved h value v hreads.1 (hclean v (by simp [fillNode])) hv) hreads.2⟩
  | load ty ptr align =>
    simp only [Operation.operands, except_bind_ok] at hout
    obtain ⟨v, hv, hout⟩ := hout
    cases hout
    exact ⟨_, .load rfl rfl hreads.1
      (printsTyped_resolved h ptr v hreads.2.1 (hclean v (by simp [fillNode])) hv) hreads.2.2⟩
  | store value ptr align =>
    simp only [Operation.operands, resolveAll, except_bind_ok] at hout
    obtain ⟨vs, ⟨v, hv, ws, ⟨w, hw, us, hus, hws⟩, hvs⟩, hout⟩ := hout
    cases hus
    cases hws
    cases hvs
    cases hout
    exact ⟨_, .store rfl rfl rfl
      (printsTyped_resolved h value v hreads.1 (hclean v (by simp [fillNode])) hv)
      (printsTyped_resolved h ptr w hreads.2.1 (hclean w (by simp [fillNode])) hw) hreads.2.2⟩
  | alloca ty align =>
    cases hout
    exact ⟨_, .alloca rfl rfl rfl hreads.1 hreads.2⟩
  | gep inbounds source base indices =>
    simp only [Operation.operands, resolveAll, except_bind_ok] at hout
    obtain ⟨ws, ⟨v, hv, vs, hvs, hws⟩, hout⟩ := hout
    cases hws
    cases hout
    have hall := allPrint_iff.mp (allPrint_resolved h indices vs
      (TypedTerm.allFit_iff.mpr hreads.2.2) (fun w hw => hclean w (by simp [fillNode, hw])) hvs)
    exact ⟨_, .gep rfl ((hkeeps.gep source inbounds rfl).trans (gepTy_staticIndex hall).symm) rfl
      hreads.1 (printsTyped_resolved h base v hreads.2.1 (hclean v (by simp [fillNode])) hv) hall⟩
  | select cond ifTrue ifFalse =>
    simp only [Operation.operands, resolveAll, except_bind_ok] at hout
    obtain ⟨_, ⟨v, hv, _, ⟨w, hw, _, ⟨u, hu, _, hnil, h₁⟩, h₂⟩, h₃⟩, hout⟩ := hout
    cases hnil
    cases h₁
    cases h₂
    cases h₃
    cases hout
    have hty : sp.program.valueTy w = ifTrue.ty :=
      htyped.operands (ifTrue.ty, w) (by simp [Operation.writtenTys, fillNode])
    exact ⟨_, .select rfl hty.symm rfl
      (printsTyped_resolved h cond v hreads.1 (hclean v (by simp [fillNode])) hv)
      (printsTyped_resolved h ifTrue w hreads.2.1 (hclean w (by simp [fillNode])) hw)
      (printsTyped_resolved h ifFalse u hreads.2.2 (hclean u (by simp [fillNode])) hu)⟩
  | phi ty incoming =>
    simp only [Operation.operands, except_bind_ok] at hout
    obtain ⟨pairs, hpairs, hout⟩ := hout
    cases hout
    have hforall := mapM_ok.mp hpairs
    refine ⟨_, @Renders.phi sp _ pairs rfl rfl ?_ hreads.1 ?_⟩
    · rintro rfl
      exact hreads.2.1 (List.forall₂_nil_right_iff.mp hforall)
    · exact incoming_of_resolved h hblocks hreads.1 hforall hreads.2.2
        (fun x hx => hclean x.1 (List.mem_map_of_mem hx))

end Spelling

end QirProfile.Assembly
