import QirProfile.Assembly.Units
import QirProfile.Proofs.Assembly.ReadingInstructions

/-!
# Program texts are read from their tokens

A program text is a list of entities (`Entity`): header lines, named types, globals, functions and
attribute groups. `Entity.tokens` writes each as tokens, `Entity.Reads` collects what reading asks of
it, and `Entity.add` is what reading it adds to a tree.
-/

namespace QirProfile.Assembly

open Reader

variable {us : List Token}

/-! ## 1. Trees without lines -/

/-- An instruction without its line. -/
def InstrTree.unlined (t : InstrTree) : InstrTree := { t with line := 0 }

/-- A block without lines. -/
def BlockTree.unlined (b : BlockTree) : BlockTree :=
  { b with instrs := b.instrs.map InstrTree.unlined }

/-- A function without lines. -/
def FuncTree.unlined (t : FuncTree) : FuncTree :=
  { t with blocks := t.blocks.map BlockTree.unlined }

/-- A program without lines. -/
def ProgramTree.unlined (t : ProgramTree) : ProgramTree :=
  { t with functions := t.functions.map FuncTree.unlined }

/-! ## 2. Entities -/

/-- An instruction as it is written: its result, its operation, and the type that its call
    writes. -/
structure InstrDraft where
  result : Option Symbol
  operation : Operation
  written : Ty

/-- The tree of an instruction. -/
def InstrDraft.tree (x : InstrDraft) : InstrTree := ⟨x.result, x.operation, 0⟩

/-- The tokens of an instruction. -/
def InstrDraft.tokens (x : InstrDraft) : List Token :=
  (match x.result with
    | some s => [s.localToken, .equals]
    | none => []) ++ x.operation.tokens x.written

/-- A block as it is written. -/
structure BlockDraft where
  label : Option Symbol
  instrs : List InstrDraft

/-- The tree of a block. -/
def BlockDraft.tree (b : BlockDraft) : BlockTree := ⟨b.label, b.instrs.map InstrDraft.tree⟩

/-- The tokens of a block. -/
def BlockDraft.tokens (b : BlockDraft) : List Token :=
  (b.label.map Symbol.labelToken).toList ++ b.instrs.flatMap InstrDraft.tokens

/-- A function as it is written: everything but its blocks from a tree, and the blocks. -/
structure FuncDraft where
  head : FuncTree
  blocks : List BlockDraft

/-- The tree of a function. -/
def FuncDraft.tree (f : FuncDraft) : FuncTree :=
  { f.head with blocks := f.blocks.map BlockDraft.tree }

/-- The token of a word, if there is one. -/
def wordTokens (word : Option String) : List Token :=
  (word.map Token.keyword).toList

/-- The tokens of a parameter. -/
def paramDraftTokens (x : Ty × Option Symbol) : List Token :=
  x.1.tokens ++ (x.2.map Symbol.localToken).toList

/-- The tokens between the parentheses of a function. -/
def functionParamTokens (params : List (Ty × Option Symbol)) (varArg : Bool) : List Token :=
  commaTokens (params.map paramDraftTokens ++ if varArg then [[.ellipsis]] else [])

/-- The tokens of a function's body. -/
def bodyTokens : List BlockDraft → List Token
  | [] => []
  | blocks => .leftBrace :: (blocks.flatMap BlockDraft.tokens ++ [.rightBrace])

/-- The tokens of a function behind its first word. -/
def FuncDraft.tokens (f : FuncDraft) : List Token :=
  wordTokens f.head.linkage ++ (f.head.ret.tokens ++ (globalSymbol f.head.name).globalToken ::
    .leftParen :: (functionParamTokens f.head.params f.head.varArg ++ .rightParen ::
      (wordTokens f.head.unnamedAddr ++ (f.head.groups.map Token.groupId ++ bodyTokens f.blocks))))

/-- The tokens of a global. -/
def GlobalTree.tokens (g : GlobalTree) : List Token :=
  g.name.globalToken :: .equals :: (wordTokens g.linkage ++ (wordTokens g.unnamedAddr ++
    .keyword (if g.constant then "constant" else "global") :: (g.ty.tokens ++
      ((g.initializer.map Term.tokens).getD [] ++ alignTokens g.align))))

/-- The tokens of an attribute. -/
def attributeTokens : Attribute → List Token
  | .keyword word => [.keyword word]
  | .pair key none => [.string key]
  | .pair key (some value) => [.string key, .equals, .string value]

/-- One unit of a program text. -/
inductive Entity where
  | sourceFile (name : String)
  | dataLayout (text : String)
  | targetTriple (text : String)
  | namedType (name : String) (body : Option Ty)
  | global (tree : GlobalTree)
  | function (f : FuncDraft)
  | group (id : Nat) (attributes : List Attribute)

namespace Entity

/-- The tokens of an entity. -/
def tokens : Entity → List Token
  | sourceFile name => [.keyword "source_filename", .equals, .string name]
  | dataLayout text => [.keyword "target", .keyword "datalayout", .equals, .string text]
  | targetTriple text => [.keyword "target", .keyword "triple", .equals, .string text]
  | namedType name body => .localName name :: .equals :: .keyword "type" ::
    (body.map Ty.tokens).getD [.keyword "opaque"]
  | global tree => tree.tokens
  | function f => .keyword (if f.blocks.isEmpty then "declare" else "define") :: f.tokens
  | group id attributes => .keyword "attributes" :: .groupId id :: .equals :: .leftBrace ::
    (attributes.flatMap attributeTokens ++ [.rightBrace])

/-- What reading the entity adds to a tree. -/
def add (tree : ProgramTree) : Entity → ProgramTree
  | sourceFile name => { tree with sourceFile := some name }
  | dataLayout text => { tree with dataLayout := some text }
  | targetTriple text => { tree with targetTriple := some text }
  | namedType name body => { tree with namedTypes := tree.namedTypes ++ [(name, body)] }
  | global g => { tree with globals := tree.globals ++ [g] }
  | function f => { tree with functions := tree.functions ++ [f.tree] }
  | group id attributes => { tree with groups := tree.groups ++ [(id, attributes)] }

end Entity

/-! ## 3. Instructions -/

theorem takes_result? (result : Option Symbol) (word : String) :
    Takes result? ((match result with
      | some s => [s.localToken, .equals]
      | none => []) ++ .keyword word :: us) result (.keyword word :: us) := by
  rw [result?, peek_bind, peekSecond_bind]
  cases result with
  | none => simp
  | some s =>
    have hs : Takes localSymbol (s.localToken :: .equals :: .keyword word :: us) s
      (.equals :: .keyword word :: us) := takes_localSymbol s
    cases s with
    | named name =>
      simp only [Symbol.localToken] at hs
      simp [Symbol.localToken, takes_bind hs, -bind_pure_comp]
    | numbered n =>
      simp only [Symbol.localToken] at hs
      simp [Symbol.localToken, takes_bind hs, -bind_pure_comp]

theorem wp_get {β : Type} {f : Cursor → Reader β} {P : β → List Token → Prop} {ts : List Token}
    (h : ∀ c, Wp (f c) P ts) : Wp (get >>= f) P ts :=
  fun c hc => h c c hc

theorem wp_instruction {x : InstrDraft} (h : x.operation.Reads x.written) (hend : EndsInstr us) :
    Wp instruction (fun t vs => t.unlined = x.tree ∧ vs = us) (x.tokens ++ us) := by
  obtain ⟨word, body, htokens, hop⟩ := takes_operation h hend
  simp only [InstrDraft.tokens, htokens, List.append_assoc, List.cons_append]
  apply wp_bind (takes_result? x.result word)
  apply wp_bind (takes_next _)
  apply wp_get
  intro c
  simp only [← bind_assoc]
  exact wp_bind (hop c.line) (wp_pure ⟨rfl, rfl⟩)

/-! ## 4. Bodies -/

/-- Whether a token can start an instruction. -/
def startsInstr : Token → Bool
  | .localName _ | .localId _ => true
  | .keyword word => word != "addrspace"
  | _ => false

theorem operation_starts (op : Operation) (written : Ty) :
    ∃ word body, op.tokens written = .keyword word :: body ∧ (word != "addrspace") = true := by
  cases op with
  | ret value => cases value <;> exact ⟨"ret", _, rfl, by decide⟩
  | call marker => cases marker <;> exact ⟨_, _, rfl, by decide⟩
  | binary op => exact ⟨op.name, _, rfl, by cases op <;> decide⟩
  | cast op => exact ⟨op.name, _, rfl, by cases op <;> decide⟩
  | _ => exact ⟨_, _, rfl, by decide⟩

theorem draft_starts (x : InstrDraft) :
    ∃ t ts, x.tokens = t :: ts ∧ startsInstr t = true := by
  obtain ⟨word, body, hop, hword⟩ := operation_starts x.operation x.written
  simp only [InstrDraft.tokens, hop]
  cases x.result with
  | none => exact ⟨_, _, rfl, hword⟩
  | some s => cases s <;> exact ⟨_, _, rfl, rfl⟩

/-- The tokens of a body from some point on: what is left of a block, further blocks, and the
    closing brace. -/
def restTokens (rest : List InstrDraft) (blocks : List BlockDraft) (us : List Token) : List Token :=
  rest.flatMap InstrDraft.tokens ++ (blocks.flatMap BlockDraft.tokens ++ .rightBrace :: us)

theorem endsInstr_rest (rest : List InstrDraft) {blocks : List BlockDraft}
    (hlabel : ∀ b ∈ blocks, b.label.isSome = true) : EndsInstr (restTokens rest blocks us) := by
  cases rest with
  | nil =>
    cases blocks with
    | nil =>
      intro t ht
      cases ht
      rfl
    | cons b blocks =>
      obtain ⟨s, hs⟩ := Option.isSome_iff_exists.mp (hlabel b List.mem_cons_self)
      intro t ht
      simp only [restTokens, List.flatMap_nil, List.nil_append, List.flatMap_cons,
        BlockDraft.tokens, hs, Option.map_some, Option.toList_some, List.cons_append,
        List.head?_cons, Option.mem_def, Option.some.injEq] at ht
      rw [← ht]
      cases s <;> rfl
  | cons x rest =>
    obtain ⟨t, ts, hx, ht⟩ := draft_starts x
    intro u hu
    simp only [restTokens, List.flatMap_cons, hx, List.cons_append, List.head?_cons,
      Option.mem_def, Option.some.injEq] at hu
    rw [← hu]
    cases t <;> simp_all [startsInstr, continuesInstr, continuesType]

theorem pushInstr_unlined (blocks : List BlockTree) (t : InstrTree) :
    (pushInstr blocks t).map BlockTree.unlined =
      pushInstr (blocks.map BlockTree.unlined) t.unlined := by
  unfold pushInstr
  rw [List.getLast?_map]
  cases blocks.getLast? with
  | none => rfl
  | some b => simp [BlockTree.unlined]

theorem foldl_pushInstr (blocks : List BlockTree) (label : Option Symbol)
    (front ts : List InstrTree) :
    ts.foldl pushInstr (blocks ++ [⟨label, front⟩]) = blocks ++ [⟨label, front ++ ts⟩] := by
  induction ts generalizing front with
  | nil => simp
  | cons t ts ih =>
    have hpush : pushInstr (blocks ++ [⟨label, front⟩]) t = blocks ++ [⟨label, front ++ [t]⟩] := by
      simp [pushInstr]
    rw [List.foldl_cons, hpush, ih]
    simp

/-- The body from some point on: the blocks so far with what is left of the last one, and the
    further blocks, make the whole. -/
structure BodyLeft (whole : List BlockTree) (us : List Token) (rest : List InstrDraft)
    (further : List BlockDraft) (blocks : List BlockTree) (ts : List Token) : Prop where
  tokens : ts = restTokens rest further us
  whole : (rest.map InstrDraft.tree).foldl pushInstr (blocks.map BlockTree.unlined) ++
    further.map BlockDraft.tree = whole
  labels : ∀ b ∈ further, b.label.isSome = true
  reads : ∀ x ∈ rest ++ further.flatMap BlockDraft.instrs, x.operation.Reads x.written

theorem startsInstr_facts {t : Token} (h : startsInstr t = true) :
    t ≠ .rightBrace ∧ (∀ name, t ≠ .labelName name) ∧ ∀ n, t ≠ .labelId n := by
  refine ⟨?_, ?_, ?_⟩
  · rintro rfl
    cases h
  · rintro name rfl
    cases h
  · rintro n rfl
    cases h

theorem wp_functionBody {whole : List BlockTree} {rest : List InstrDraft}
    {further : List BlockDraft} {ts : List Token}
    (h : BodyLeft whole us rest further [] ts) :
    Wp functionBody (fun blocks vs => blocks.map BlockTree.unlined = whole ∧ vs = us) ts := by
  unfold functionBody
  refine wp_repeatStep (I := fun blocks ts => ∃ rest further,
    BodyLeft whole us rest further blocks ts) ?_ ⟨rest, further, h⟩
  rintro blocks ts ⟨rest, further, rfl, hwhole, hlabels, hreads⟩
  apply wp_bind takes_peek
  cases rest with
  | cons x rest =>
    -- What is left of the block: an instruction joins the last block.
    obtain ⟨t, us', hx, ht⟩ := draft_starts x
    obtain ⟨hbrace, hname, hid⟩ := startsInstr_facts ht
    have hhead : (restTokens (x :: rest) further us).head? = some t := by
      simp [restTokens, hx]
    rw [hhead]
    have hstep : Wp (do return Step.again (pushInstr blocks (← instruction)))
        (StepKeeps (fun blocks ts => ∃ rest further, BodyLeft whole us rest further blocks ts)
          (fun (blocks : List BlockTree) vs => blocks.map BlockTree.unlined = whole ∧ vs = us)
          (restTokens (x :: rest) further us)) (restTokens (x :: rest) further us) := by
      have hinstr := wp_instruction (hreads x (by simp))
        (endsInstr_rest rest hlabels : EndsInstr (restTokens rest further us))
      apply wp_bind'
      intro c hc
      obtain ⟨tree, c', hrun, htree, hleft⟩ := hinstr c (by rw [hc]; simp [restTokens])
      refine ⟨tree, c', hrun, wp_pure ⟨⟨rest, further, hleft, ?_, hlabels, ?_⟩, ?_⟩⟩
      · rw [pushInstr_unlined, htree, ← hwhole]
        rfl
      · exact fun y hy => hreads y (by simp_all)
      · rw [hleft]
        simp only [restTokens, List.flatMap_cons, hx, List.length_append, List.length_cons]
        omega
    split <;> simp_all
  | nil =>
    cases further with
    | nil =>
      -- The closing brace.
      apply wp_bind takes_advance
      exact wp_pure ⟨by simpa using hwhole, rfl⟩
    | cons b further =>
      -- A label opens the next block.
      obtain ⟨s, hs⟩ := Option.isSome_iff_exists.mp (hlabels b List.mem_cons_self)
      have hnext : BodyLeft whole us b.instrs further (blocks ++ [⟨some s, []⟩])
          (restTokens b.instrs further us) := by
        refine ⟨rfl, ?_, fun c hc => hlabels c (List.mem_cons_of_mem b hc), ?_⟩
        · rw [List.map_append]
          have := foldl_pushInstr (blocks.map BlockTree.unlined) (some s) []
            (b.instrs.map InstrDraft.tree)
          simp only [List.map_cons, List.map_nil, BlockTree.unlined] at this ⊢
          rw [this, ← hwhole]
          simp [BlockDraft.tree, hs]
        · exact fun y hy => hreads y (by simp_all)
      have htokens : restTokens [] (b :: further) us =
          s.labelToken :: restTokens b.instrs further us := by
        simp [restTokens, BlockDraft.tokens, hs]
      rw [htokens]
      cases s with
      | named name =>
        apply wp_bind takes_advance
        exact wp_pure ⟨⟨_, _, hnext⟩, by simp⟩
      | numbered n =>
        apply wp_bind takes_advance
        exact wp_pure ⟨⟨_, _, hnext⟩, by simp⟩

/-! ## 5. Heads of functions -/

/-- The tokens start a new entity, or there are none. -/
def startsEntity : List Token → Bool
  | [] => true
  | .keyword word :: _ => isEntityWord word
  | .localName _ :: .equals :: _ | .globalName _ :: .equals :: _
  | .globalId _ :: .equals :: _ => true
  | _ => false

/-- The word is one of linkage. -/
def isLinkage (word : String) : Bool := linkages.contains word

theorem linkage_facts {word : String} (h : isLinkage word = true) :
    isTypeWord word = false ∧ isAddressMarker word = false ∧ word ≠ "global" ∧
      word ≠ "constant" := by
  simp only [isLinkage, linkages, List.contains_eq_mem, decide_eq_true_eq, List.mem_cons,
    List.not_mem_nil, or_false] at h
  rcases h with rfl | rfl | rfl | rfl | rfl | rfl | rfl | rfl | rfl | rfl | rfl <;> decide

theorem takes_skipParens {ts : List Token} (h : ts.head? ≠ some .leftParen) :
    Takes skipParens ts () ts := by
  rw [skipParens, at?_ne h]
  simp

theorem takes_endOfWords (linkage : Option String) (t : Ty) : Takes (do
      match ← peek with
      | some (.keyword word) =>
        if isTypeWord word then return Step.done linkage
        advance
        skipParens
        return .again (if linkages.contains word then some word else linkage)
      | _ => return .done linkage) (t.tokens ++ us) (.done linkage) (t.tokens ++ us) := by
  obtain ⟨x, xs, hx, hstarts⟩ := tokens_starts t
  rw [peek_bind, hx]
  cases x with
  | keyword word =>
    have : isTypeWord word = true := hstarts
    simp [this]
  | _ => simp

theorem takes_functionWords {linkage : Option String} (t : Ty)
    (h : ∀ word ∈ linkage, isLinkage word = true) :
    Takes functionWords (wordTokens linkage ++ (t.tokens ++ us)) linkage (t.tokens ++ us) := by
  cases linkage with
  | none => exact (Loops.done (takes_endOfWords none t)).takes
  | some word =>
    obtain ⟨hword, -⟩ := linkage_facts (h word rfl)
    have hparens : Takes skipParens (t.tokens ++ us) () (t.tokens ++ us) :=
      takes_skipParens (head?_type_ne rfl)
    refine (Loops.again (?_ : Takes _ _ (Step.again (some word)) _) ?_
      (.done (takes_endOfWords (some word) t))).takes
    · have hcontains : linkages.contains word = true := h word rfl
      simp only [wordTokens, Option.map_some, Option.toList_some, List.cons_append,
        List.nil_append, peek_bind, List.head?_cons, hword, Bool.false_eq_true, if_false]
      rw [advance_bind, takes_bind hparens, if_pos hcontains]
      simp
    · simp [wordTokens]

theorem functionParamTokens_cons (x : Ty × Option Symbol) (xs : List (Ty × Option Symbol))
    (varArg : Bool) : functionParamTokens (x :: xs) varArg = paramDraftTokens x ++
      (if xs = [] ∧ varArg = false then [] else .comma :: functionParamTokens xs varArg) := by
  cases xs with
  | nil => cases varArg <;> simp [functionParamTokens, commaTokens]
  | cons y xs => simp [functionParamTokens, commaTokens]

theorem param_bind {β : Type} {b : β} {x : Ty × Option Symbol} {vs ws : List Token}
    {k : Ty → Option Symbol → Reader β} (hfits : x.1.Fits)
    (hvs : vs.head? = some .comma ∨ vs.head? = some .rightParen) :
    Takes (do
        let ty ← type
        skipParamAttributes
        match ← peek with
        | some (.localName _) | some (.localId _) => (some <$> localSymbol) >>= k ty
        | _ => pure none >>= k ty) (paramDraftTokens x ++ vs) b ws ↔ Takes (k x.1 x.2) vs b ws := by
  obtain ⟨ty, symbol⟩ := x
  cases symbol with
  | none =>
    have hends : EndsType vs := by
      intro t ht
      rcases hvs with h | h
      · rw [h] at ht
        cases ht
        rfl
      · rw [h] at ht
        cases ht
        rfl
    have hskip : Takes skipParamAttributes vs () vs := by
      rcases hvs with h | h
      · exact takes_skipParamAttributes_of h (by simp)
      · exact takes_skipParamAttributes_of h (by simp)
    simp only [paramDraftTokens, Option.map_none, Option.toList_none, List.append_nil]
    rw [takes_bind (takes_type hfits hends), takes_bind hskip]
    rcases hvs with h | h
    · simp [h]
    · simp [h]
  | some s =>
    have hends : EndsType (s.localToken :: vs) := by
      cases s <;> exact endsType_cons rfl
    have hskip : Takes skipParamAttributes (s.localToken :: vs) () (s.localToken :: vs) := by
      cases s <;> exact takes_skipParamAttributes_of rfl (by simp [Symbol.localToken])
    have hs : Takes localSymbol (s.localToken :: vs) s vs := takes_localSymbol s
    have hmap : Takes (some <$> localSymbol) (s.localToken :: vs) (some s) vs := by
      rw [← bind_pure_comp, takes_bind hs]
      simp
    simp only [paramDraftTokens, Option.map_some, Option.toList_some, List.append_assoc,
      List.cons_append, List.nil_append]
    rw [takes_bind (takes_type hfits hends), takes_bind hskip, peek_bind]
    cases s with
    | named name => exact takes_bind hmap
    | numbered n => exact takes_bind hmap

theorem takes_functionParams {params : List (Ty × Option Symbol)} {varArg : Bool}
    (h : ∀ x ∈ params, x.1.Fits) :
    Takes functionParams (functionParamTokens params varArg ++ .rightParen :: us)
      (params, varArg) us := by
  unfold functionParams
  apply Loops.takes
  refine (fun hall : ∀ d, Loops ?step (d, false)
    (functionParamTokens params varArg ++ .rightParen :: us) (d ++ params, varArg) us =>
    hall []) ?_
  induction params with
  | nil =>
    intro d
    apply Loops.done
    cases varArg <;> simp [functionParamTokens, commaTokens, -bind_pure_comp]
  | cons x params ih =>
    intro d
    have htail := ih (fun y hy => h y (List.mem_cons_of_mem x hy)) (d ++ [x])
    have hfits := h x List.mem_cons_self
    have hhead : ∀ t vs, startsType t = false → (paramDraftTokens x ++ vs).head? ≠ some t := by
      intro t vs ht
      rw [paramDraftTokens, List.append_assoc]
      exact head?_type_ne ht
    rw [List.append_assoc] at htail
    rw [functionParamTokens_cons]
    by_cases hlast : params = [] ∧ varArg = false
    · obtain ⟨rfl, rfl⟩ := hlast
      apply Loops.done
      simp only [and_self, if_true, List.append_nil]
      rw [accept_ne (hhead .rightParen _ rfl)]
      simp only [Bool.false_eq_true, if_false]
      rw [accept_ne (hhead .ellipsis _ rfl)]
      simp only [Bool.false_eq_true, if_false]
      refine (param_bind hfits (.inr rfl)).mpr ?_
      simp [-bind_pure_comp]
    · rw [if_neg hlast, List.append_assoc, List.cons_append]
      refine .again ?_ ?_ htail
      · rw [accept_ne (hhead .rightParen _ rfl)]
        simp only [Bool.false_eq_true, if_false]
        rw [accept_ne (hhead .ellipsis _ rfl)]
        simp only [Bool.false_eq_true, if_false]
        refine (param_bind hfits (.inl rfl)).mpr ?_
        simp [-bind_pure_comp]
      · simp only [List.length_append, List.length_cons]
        omega

/-- The tokens go on with a body or a new entity. -/
def EndsHead (ts : List Token) : Prop :=
  ts.head? = some .leftBrace ∨ startsEntity ts = true

theorem loops_groups {unnamedAddr : Option String} (hend : EndsHead us) :
    ∀ (groups d : List Nat), Loops (fun tail : FunctionTail => do
      match ← peek with
      | some (.keyword word) =>
        if isEntityWord word then return .done tail
        advance
        return .again (← functionTailWord tail word)
      | some (.groupId n) =>
        advance
        return .again { tail with groups := tail.groups ++ [n] }
      | some (.string _) =>
        return .again { tail with attributes := tail.attributes ++ [← stringAttribute] }
      | some (.metadataName _) =>
        if (← peekSecond) = some .equals then return .done tail
        advance
        skipMetadata
        return .again tail
      | _ => return .done tail) ⟨unnamedAddr, [], d⟩ (groups.map Token.groupId ++ us)
        ⟨unnamedAddr, [], d ++ groups⟩ us := by
  intro groups
  induction groups with
  | nil =>
    intro d
    apply Loops.done
    simp only [List.map_nil, List.nil_append, List.append_nil, peek_bind]
    rcases hend with h | h
    · simp [h]
    · cases us with
      | nil => simp
      | cons t us =>
        cases t with
        | keyword word =>
          have : isEntityWord word = true := h
          simp [this]
        | localName | globalName | globalId => simp
        | _ => cases h
  | cons n groups ih =>
    intro d
    refine .again (?_ : Takes _ _ (Step.again ⟨unnamedAddr, [], d ++ [n]⟩) _) ?_
      (by simpa using ih (d ++ [n]))
    · simp [-bind_pure_comp]
    · simp

theorem takes_functionTail {unnamedAddr : Option String} (groups : List Nat)
    (haddr : ∀ word ∈ unnamedAddr, isAddressMarker word = true) (hend : EndsHead us) :
    Takes functionTail (wordTokens unnamedAddr ++ (groups.map Token.groupId ++ us))
      ⟨unnamedAddr, [], groups⟩ us := by
  cases unnamedAddr with
  | none => exact (loops_groups hend groups []).takes
  | some word =>
    have hword := haddr word rfl
    simp only [isAddressMarker, Bool.or_eq_true, beq_iff_eq] at hword
    refine (Loops.again (?_ : Takes _ _ (Step.again ⟨some word, [], []⟩) _) ?_
      (loops_groups hend groups [])).takes
    · have hentity : isEntityWord word = false := by
        rcases hword with rfl | rfl <;> decide
      simp only [wordTokens, Option.map_some, Option.toList_some, List.cons_append,
        List.nil_append, peek_bind, List.head?_cons, hentity, Bool.false_eq_true, if_false]
      rw [advance_bind]
      rcases hword with rfl | rfl <;> simp [functionTailWord]
    · simp [wordTokens]

/-! ## 6. Functions -/

/-- The function can be read back. -/
structure FuncDraft.Reads (f : FuncDraft) : Prop where
  linkage : ∀ word ∈ f.head.linkage, isLinkage word = true
  ret : f.head.ret.Fits
  name : Recovers f.head.name
  params : ∀ x ∈ f.head.params, x.1.Fits
  unnamedAddr : ∀ word ∈ f.head.unnamedAddr, isAddressMarker word = true
  attributes : f.head.attributes = []
  /-- Only the first block may be without a label, and then it has instructions. -/
  first : ∀ b ∈ f.blocks.head?, b.label = none → b.instrs ≠ []
  labels : ∀ b ∈ f.blocks.tail, b.label.isSome = true
  instrs : ∀ x ∈ f.blocks.flatMap BlockDraft.instrs, x.operation.Reads x.written

theorem takes_globalSymbol (s : Symbol) : Takes Reader.globalSymbol (s.globalToken :: us) s us := by
  cases s <;> simp [Reader.globalSymbol, Symbol.globalToken]

theorem endsType_globalToken (s : Symbol) : EndsType (s.globalToken :: us) := by
  cases s <;> exact endsType_cons rfl

theorem bodyLeft_start (us : List Token) {f : FuncDraft} (h : f.Reads) {b : BlockDraft}
    {blocks : List BlockDraft} (hb : f.blocks = b :: blocks) : ∃ rest further, BodyLeft (f.blocks.map BlockDraft.tree) us
      rest further [] (f.blocks.flatMap BlockDraft.tokens ++ .rightBrace :: us) := by
  have hlabels : ∀ c ∈ blocks, c.label.isSome = true := by
    intro c hc
    exact h.labels c (by rw [hb]; exact hc)
  have hinstrs := h.instrs
  rw [hb] at hinstrs ⊢
  cases hlabel : b.label with
  | some s =>
    refine ⟨[], b :: blocks, rfl, rfl, ?_, by simpa using hinstrs⟩
    intro c hc
    rcases List.mem_cons.mp hc with rfl | hc
    · simp [hlabel]
    · exact hlabels c hc
  | none =>
    have hne := h.first b (by rw [hb]; rfl) hlabel
    refine ⟨b.instrs, blocks, ?_, ?_, hlabels, by simpa using hinstrs⟩
    · simp [restTokens, BlockDraft.tokens, hlabel]
    · obtain ⟨x, xs, hx⟩ := List.exists_cons_of_ne_nil hne
      have hfold := foldl_pushInstr [] none [x.tree] (xs.map InstrDraft.tree)
      simp only [List.nil_append] at hfold
      simp [hx, pushInstr, hfold, BlockDraft.tree, hlabel]

theorem endsHead_body {f : FuncDraft} (hus : startsEntity us = true) :
    EndsHead (bodyTokens f.blocks ++ us) := by
  cases f.blocks with
  | nil => exact .inr hus
  | cons b blocks => exact .inl rfl

theorem wp_function {f : FuncDraft} (h : f.Reads) (hus : startsEntity us = true) :
    Wp (Reader.function (!f.blocks.isEmpty)) (fun t vs => t.unlined = f.tree ∧ vs = us)
      (f.tokens ++ us) := by
  have hname := (globalSymbol_spec h.name).2.2
  simp only [FuncDraft.tokens, List.append_assoc, List.cons_append]
  apply wp_bind (takes_functionWords f.head.ret h.linkage)
  apply wp_bind (takes_type h.ret (endsType_globalToken _))
  apply wp_bind (takes_globalSymbol _)
  apply wp_bind takes_expect
  apply wp_bind (takes_functionParams h.params)
  apply wp_bind (takes_functionTail f.head.groups h.unnamedAddr (endsHead_body hus))
  have hattributes := h.attributes
  cases hb : f.blocks with
  | nil =>
    apply wp_bind (takes_pure.mpr ⟨rfl, rfl⟩)
    refine wp_pure ⟨?_, rfl⟩
    simp [FuncTree.unlined, FuncDraft.tree, hname, hattributes, hb]
  | cons b blocks =>
    obtain ⟨rest, further, hleft⟩ := bodyLeft_start us h hb
    have hbody := wp_functionBody hleft
    rw [hb] at hbody
    simp only [List.isEmpty_cons, Bool.not_false, if_true, bodyTokens, List.cons_append,
      List.append_assoc, List.nil_append]
    apply wp_bind takes_expect
    apply wp_bind'
    intro c hc
    obtain ⟨trees, c', hrun, htrees, hus'⟩ := hbody c hc
    refine ⟨trees, c', hrun, wp_pure ⟨?_, hus'⟩⟩
    simp [FuncTree.unlined, FuncDraft.tree, hname, hattributes, htrees, hb]

/-! ## 7. Globals -/

/-- The global can be read back. -/
structure GlobalTree.Reads (g : GlobalTree) : Prop where
  linkage : ∀ word ∈ g.linkage, isLinkage word = true
  unnamedAddr : ∀ word ∈ g.unnamedAddr, isAddressMarker word = true
  ty : g.ty.Fits
  initializer : ∀ t ∈ g.initializer, t.Fits
  align : ∀ n ∈ g.align, n < span 32

theorem globalWords_steps : ∃ step, globalWords = repeatStep step (none, none) ∧
    (∀ l m us, Takes (step (l, m)) (.keyword "global" :: us) (.done (l, m, false)) us) ∧
    (∀ l m us, Takes (step (l, m)) (.keyword "constant" :: us) (.done (l, m, true)) us) ∧
    (∀ l m word us, isAddressMarker word = true →
      Takes (step (l, m)) (.keyword word :: us) (.again (l, some word)) us) ∧
    ∀ l m word us, isLinkage word = true →
      Takes (step (l, m)) (.keyword word :: us) (.again (some word, m)) us := by
  refine ⟨_, rfl, ?_, ?_, ?_, ?_⟩
  · intro l m us
    simp
  · intro l m us
    simp
  · intro l m word us h
    simp only [isAddressMarker, Bool.or_eq_true, beq_iff_eq] at h
    rcases h with rfl | rfl <;> simp [isAddressMarker]
  · intro l m word us h
    obtain ⟨-, haddr, hglobal, hconstant⟩ := linkage_facts h
    have hcontains : linkages.contains word = true := h
    rw [next_bind]
    split
    · simp_all
    · simp_all
    · rename_i w hw _ heq
      cases heq
      rw [haddr, hcontains]
      simp
    · simp_all

theorem takes_globalWords {g : GlobalTree} (h : g.Reads) :
    Takes globalWords (wordTokens g.linkage ++ (wordTokens g.unnamedAddr ++
      .keyword (if g.constant then "constant" else "global") :: us))
      (g.linkage, g.unnamedAddr, g.constant) us := by
  obtain ⟨step, heq, hglobal, hconstant, haddr, hlink⟩ := globalWords_steps
  rw [heq]
  have hlast : ∀ l m, Loops step (l, m)
      (.keyword (if g.constant then "constant" else "global") :: us) (l, m, g.constant) us := by
    intro l m
    cases g.constant with
    | false => exact .done (hglobal l m us)
    | true => exact .done (hconstant l m us)
  have hmarker : ∀ l, Loops step (l, none) (wordTokens g.unnamedAddr ++
      .keyword (if g.constant then "constant" else "global") :: us)
      (l, g.unnamedAddr, g.constant) us := by
    intro l
    cases hm : g.unnamedAddr with
    | none => exact hlast l none
    | some word =>
      exact .again (haddr l none word _ (h.unnamedAddr word hm)) (by simp [wordTokens])
        (hlast l (some word))
  cases hl : g.linkage with
  | none => exact (hmarker none).takes
  | some word =>
    exact (Loops.again (hlink none none word _ (h.linkage word hl)) (by simp [wordTokens])
      (hmarker (some word))).takes

theorem takes_endOfProperties (hus : us.head? ≠ some .comma) (a : Option Nat) : Takes (do
      if ← accept .comma then
        match ← next "expected global property" with
        | .keyword "align" => return .again (some (← number32))
        | .keyword "section" | .keyword "partition" =>
          let _ ← string
          return .again a
        | .keyword "comdat" =>
          skipParens
          return .again a
        | .metadataName _ =>
          skipMetadata
          return .again a
        | other => unexpected "global property" other
      return Step.done a) us (.done a) us := by
  rw [accept_ne hus]
  simp

theorem takes_globalProperties {align : Option Nat} (h : ∀ n ∈ align, n < span 32)
    (hus : us.head? ≠ some .comma) : Takes globalProperties (alignTokens align ++ us) align us := by
  cases align with
  | none => exact (Loops.done (takes_endOfProperties hus none)).takes
  | some n =>
    refine (Loops.again (?_ : Takes _ _ (Step.again (some n)) us) ?_ (.done (takes_endOfProperties hus (some n)))).takes
    · simp [alignTokens, takes_bind (takes_number32 (h n rfl)), -bind_pure_comp]
    · simp [alignTokens]
      omega

theorem startsEntity_head {t : Token} (h : startsEntity us = true) (ht : us.head? = some t) :
    (∃ word, t = .keyword word ∧ isEntityWord word = true) ∨
      (us[1]? = some .equals ∧
        ((∃ name, t = .localName name) ∨ (∃ name, t = .globalName name) ∨ ∃ n, t = .globalId n)) := by
  cases us with
  | nil => cases ht
  | cons u us =>
    cases ht
    unfold startsEntity at h
    split at h
    all_goals simp_all

theorem takes_atTerm?_term (t : Term) (hus : us.head? ≠ some .equals) :
    Takes atTerm? (t.tokens ++ us) true (t.tokens ++ us) := by
  unfold atTerm?
  rw [peek_bind]
  by_cases hglobal : ∃ s, t = .global s
  · obtain ⟨s, rfl⟩ := hglobal
    have hsecond : ((Term.global s).tokens ++ us)[1]? ≠ some .equals := by
      cases us with
      | nil => simp [Term.tokens]
      | cons u us => simpa [Term.tokens] using hus
    cases s <;>
      exact peekSecond_bind.mpr (takes_pure.mpr ⟨decide_eq_true hsecond, rfl⟩)
  · obtain ⟨x, xs, hx, hstarts⟩ := term_starts t
    rw [hx]
    cases x with
    | globalName | globalId =>
      exfalso
      cases t with
      | global s => exact hglobal ⟨s, rfl⟩
      | «local» s => cases s <;> simp [Term.tokens, Symbol.localToken] at hx
      | float bits =>
        simp only [Term.tokens, floatToken] at hx
        split at hx <;> cases hx
      | _ => simp [Term.tokens] at hx
    | keyword word =>
      have hword : isValueWord word = true := hstarts
      exact takes_pure.mpr ⟨hword, rfl⟩
    | localName | localId | integer | decimal | hexBits | bytes | leftBracket | leftBrace =>
      exact takes_pure.mpr ⟨rfl, rfl⟩
    | _ => exact absurd hstarts Bool.false_ne_true

theorem takes_atTerm?_end {align : Option Nat} (hus : startsEntity us = true)
    (hlocal : ∀ name, us.head? ≠ some (.localName name)) :
    Takes atTerm? (alignTokens align ++ us) false (alignTokens align ++ us) := by
  unfold atTerm?
  rw [peek_bind]
  cases align with
  | some n => exact takes_pure.mpr ⟨rfl, rfl⟩
  | none =>
    have hnone : alignTokens none ++ us = us := rfl
    rw [hnone]
    cases hhead : us.head? with
    | none => exact takes_pure.mpr ⟨rfl, rfl⟩
    | some t =>
      rcases startsEntity_head hus hhead with ⟨word, rfl, hword⟩ | ⟨hsecond, h⟩
      · have hvalue : isValueWord word = false := by
          simp only [isEntityWord, List.contains_eq_mem, decide_eq_true_eq, List.mem_cons,
            List.not_mem_nil, or_false] at hword
          rcases hword with rfl | rfl | rfl | rfl | rfl | rfl <;> decide
        exact takes_pure.mpr ⟨hvalue, rfl⟩
      · have hdefines : decide (us[1]? ≠ some .equals) = false := by simpa using hsecond
        rcases h with ⟨name, rfl⟩ | ⟨name, rfl⟩ | ⟨n, rfl⟩
        · exact absurd hhead (hlocal name)
        · exact peekSecond_bind.mpr (takes_pure.mpr ⟨hdefines, rfl⟩)
        · exact peekSecond_bind.mpr (takes_pure.mpr ⟨hdefines, rfl⟩)

theorem startsEntity_ne {t : Token} (h : startsEntity us = true) (ht : startsEntity [t] = false)
    (ht₂ : startsEntity [t, .equals] = false) : us.head? ≠ some t := by
  intro heq
  rcases startsEntity_head h heq with ⟨word, rfl, hword⟩ | ⟨-, h⟩
  · rw [startsEntity, hword] at ht
    cases ht
  · rcases h with ⟨name, rfl⟩ | ⟨name, rfl⟩ | ⟨n, rfl⟩ <;> cases ht₂

theorem endsType_entity (h : startsEntity us = true) : EndsType us := by
  intro t ht
  rcases startsEntity_head h ht with ⟨word, rfl, hword⟩ | ⟨-, hname⟩
  · simp only [isEntityWord, List.contains_eq_mem, decide_eq_true_eq, List.mem_cons,
      List.not_mem_nil, or_false] at hword
    rcases hword with rfl | rfl | rfl | rfl | rfl | rfl <;> decide
  · rcases hname with ⟨name, rfl⟩ | ⟨name, rfl⟩ | ⟨n, rfl⟩ <;> rfl

theorem takes_globalVariable {g : GlobalTree} (h : g.Reads) (hus : startsEntity us = true)
    (hlocal : ∀ name, us.head? ≠ some (.localName name)) :
    Takes globalVariable (g.tokens ++ us) g us := by
  have hcomma : us.head? ≠ some .comma := startsEntity_ne hus rfl rfl
  have hends : EndsType (alignTokens g.align ++ us) := by
    cases g.align with
    | none => exact endsType_entity hus
    | some n => exact endsType_cons rfl
  have hequals : (alignTokens g.align ++ us).head? ≠ some .equals := by
    cases g.align with
    | none => exact startsEntity_ne hus rfl rfl
    | some n => simp [alignTokens]
  have hname : ∀ vs, Takes Reader.globalSymbol (g.name.globalToken :: vs) g.name vs :=
    fun _ => takes_globalSymbol g.name
  simp only [globalVariable, GlobalTree.tokens, List.append_assoc, List.cons_append]
  rw [takes_bind (hname _), expect_bind, takes_bind (takes_globalWords h)]
  have hinit := h.initializer
  obtain ⟨name, ty, linkage, marker, constant, init, align⟩ := g
  cases init with
  | none =>
    simp only [Option.map_none, Option.getD_none, List.nil_append]
    rw [takes_bind (takes_type h.ty hends), takes_bind (takes_atTerm?_end hus hlocal)]
    simp [takes_bind (takes_globalProperties h.align hcomma), -bind_pure_comp]
  | some t =>
    simp only [Option.map_some, Option.getD_some]
    rw [takes_bind (takes_type h.ty (endsType_term t _)), takes_bind (takes_atTerm?_term t hequals)]
    have hterm : Takes (some <$> term) (t.tokens ++ (alignTokens align ++ us)) (some t)
        (alignTokens align ++ us) := by
      rw [← bind_pure_comp, takes_bind (takes_term (hinit t rfl))]
      simp
    simp only [if_true]
    rw [takes_bind hterm, takes_bind (takes_globalProperties h.align hcomma)]
    simp

/-! ## 8. Attribute groups -/

theorem takes_string (text : String) : Takes string (.string text :: us) text us := by
  simp [string]

/-- The tokens go on with another attribute, or end the group. -/
def EndsAttribute (ts : List Token) : Prop :=
  ts.head? ≠ some .equals ∧ ts.head? ≠ some .leftParen

theorem endsAttribute_rest (us : List Token) (attributes : List Attribute) :
    EndsAttribute (attributes.flatMap attributeTokens ++ .rightBrace :: us) := by
  cases attributes with
  | nil => exact ⟨by simp, by simp⟩
  | cons a attributes =>
    cases a with
    | keyword word => exact ⟨by simp [attributeTokens], by simp [attributeTokens]⟩
    | pair key value => cases value <;> exact ⟨by simp [attributeTokens], by simp [attributeTokens]⟩

theorem takes_keywordAttribute (word : String) (h : EndsAttribute us) :
    Takes (keywordAttribute word) us (.keyword word) us := by
  unfold keywordAttribute
  rw [at?_ne h.2]
  simp only [Bool.false_eq_true, if_false]
  rw [accept_ne h.1]
  simp

theorem takes_stringAttribute (key : String) (value : Option String) (h : EndsAttribute us) :
    Takes stringAttribute (attributeTokens (.pair key value) ++ us) (.pair key value) us := by
  unfold stringAttribute
  cases value with
  | none =>
    simp only [attributeTokens, List.cons_append, List.nil_append]
    rw [takes_bind (takes_string key), accept_ne h.1]
    simp
  | some value =>
    simp only [attributeTokens, List.cons_append, List.nil_append]
    rw [takes_bind (takes_string key), accept_self]
    simp [takes_bind (takes_string value), -bind_pure_comp]

theorem takes_attributeGroup (id : Nat) (attributes : List Attribute) :
    Takes attributeGroup (.groupId id :: .equals :: .leftBrace ::
      (attributes.flatMap attributeTokens ++ .rightBrace :: us)) (id, attributes) us := by
  unfold attributeGroup
  simp only [next_bind, pure_bind]
  rw [expect_bind, expect_bind]
  refine (takes_bind (?_ : Takes _ _ attributes us)).mpr (by simp)
  apply Loops.takes
  refine (fun hall : ∀ d, Loops ?step d (attributes.flatMap attributeTokens ++ .rightBrace :: us)
    (d ++ attributes) us => hall []) ?_
  induction attributes with
  | nil =>
    intro d
    apply Loops.done
    simp [-bind_pure_comp]
  | cons a attributes ih =>
    intro d
    have hend := endsAttribute_rest us attributes
    have htail := ih (d ++ [a])
    rw [List.append_assoc] at htail
    cases a with
    | keyword word =>
      refine .again ?_ ?_ htail
      · simp [attributeTokens, takes_bind (takes_keywordAttribute word hend), -bind_pure_comp]
      · simp [attributeTokens]
    | pair key value =>
      have hread := takes_stringAttribute key value hend
      refine .again ?_ ?_ htail
      · rw [List.flatMap_cons, List.append_assoc]
        cases value <;>
          · simp only [attributeTokens, List.cons_append, List.nil_append, peek_bind,
              List.head?_cons] at hread ⊢
            rw [takes_bind hread]
            simp
      · cases value <;> simp [attributeTokens]
        omega

/-! ## 9. Programs -/

namespace Entity

/-- The entity can be read back. -/
def Reads : Entity → Prop
  | sourceFile _ | dataLayout _ | targetTriple _ | group _ _ => True
  | namedType _ body => ∀ t ∈ body, t.Fits
  | global g => g.Reads
  | function f => f.Reads

/-- Whether the entity is a named type. -/
def isNamedType : Entity → Bool
  | namedType _ _ => true
  | _ => false

/-- Whether the entity is a global. -/
def isGlobal : Entity → Bool
  | global _ => true
  | _ => false

end Entity

theorem startsEntity_tokens (e : Entity) : startsEntity (e.tokens ++ us) = true := by
  cases e with
  | global g =>
    simp only [Entity.tokens, GlobalTree.tokens, List.cons_append]
    cases g.name <;> rfl
  | function f =>
    simp only [Entity.tokens, List.cons_append]
    cases f.blocks.isEmpty <;> rfl
  | _ => rfl

theorem head?_entity_ne {e : Entity} (h : e.isNamedType = false) (name : String) :
    (e.tokens ++ us).head? ≠ some (.localName name) := by
  cases e with
  | namedType => cases h
  | global g =>
    simp only [Entity.tokens, GlobalTree.tokens, List.cons_append]
    cases g.name <;> simp [Symbol.globalToken]
  | _ => simp [Entity.tokens]

theorem takes_namedType (name : String) {body : Option Ty} (h : ∀ t ∈ body, t.Fits)
    (hus : startsEntity us = true) : Takes Reader.namedType (.localName name :: .equals ::
      .keyword "type" :: ((body.map Ty.tokens).getD [.keyword "opaque"] ++ us)) (name, body) us := by
  have hname : ∀ vs, Takes localSymbol (.localName name :: vs) (.named name) vs :=
    fun vs => takes_localSymbol (.named name)
  unfold Reader.namedType
  rw [takes_bind (hname _), expect_bind, expectWord_bind]
  cases body with
  | none => simp [acceptWord, Symbol.key]
  | some t =>
    simp only [Option.map_some, Option.getD_some]
    rw [acceptWord_type "opaque" rfl]
    simp [takes_bind (takes_type (h t rfl) (endsType_entity hus)), Symbol.key, -bind_pure_comp]

theorem wordEntity_function (tree : ProgramTree) (isDefinition : Bool) :
    wordEntity tree (if isDefinition then "define" else "declare") = (do
      advance
      return { tree with functions := tree.functions ++ [← Reader.function isDefinition] }) := by
  cases isDefinition <;> simp [wordEntity, isEntityWord]

/-- One step of the loop over entities reads this one. -/
def EntityStep (step : ProgramTree → Reader (Step ProgramTree ProgramTree)) (e : Entity)
    (us : List Token) : Prop :=
  ∀ tree, Wp (step tree)
    (fun x vs => ∃ tree', x = .again tree' ∧ tree'.unlined = e.add tree.unlined ∧ vs = us)
    (e.tokens ++ us)

theorem program_steps : ∃ step, program = repeatStep step {} ∧
    (∀ tree, Takes (step tree) [] (.done tree) []) ∧
    ∀ (e : Entity) (us : List Token), e.Reads → startsEntity us = true →
      (e.isGlobal = true → ∀ name, us.head? ≠ some (.localName name)) → EntityStep step e us := by
  refine ⟨_, rfl, ?_, ?_⟩
  · intro tree
    simp
  · intro e us h hus hlocal tree
    apply wp_bind takes_peek
    cases e with
    | sourceFile name =>
      refine Takes.wp (?_ : Takes _ _ (Step.again { tree with sourceFile := some name }) us)
        ⟨_, rfl, rfl, rfl⟩
      simp [Entity.tokens, wordEntity, isEntityWord, takes_bind (takes_string name),
        -bind_pure_comp]
    | dataLayout text =>
      refine Takes.wp (?_ : Takes _ _ (Step.again { tree with dataLayout := some text }) us)
        ⟨_, rfl, rfl, rfl⟩
      simp [Entity.tokens, wordEntity, targetLine, isEntityWord, Token.isKeyword,
        takes_bind (takes_string text), -bind_pure_comp]
    | targetTriple text =>
      refine Takes.wp (?_ : Takes _ _ (Step.again { tree with targetTriple := some text }) us)
        ⟨_, rfl, rfl, rfl⟩
      simp [Entity.tokens, wordEntity, targetLine, isEntityWord, Token.isKeyword,
        takes_bind (takes_string text), -bind_pure_comp]
    | namedType name body =>
      refine Takes.wp (?_ : Takes _ _ (Step.again
        { tree with namedTypes := tree.namedTypes ++ [(name, body)] }) us) ⟨_, rfl, rfl, rfl⟩
      simp only [Entity.tokens, List.cons_append, List.head?_cons]
      rw [takes_bind (takes_namedType name h hus)]
      simp
    | global g =>
      refine Takes.wp (?_ : Takes _ _ (Step.again
        { tree with globals := tree.globals ++ [g] }) us) ⟨_, rfl, rfl, rfl⟩
      have hread := takes_globalVariable h hus (hlocal rfl)
      have hhead : (g.tokens ++ us).head? = some g.name.globalToken := rfl
      simp only [Entity.tokens, hhead]
      cases g.name <;>
        · simp only [Symbol.globalToken]
          rw [takes_bind hread]
          simp
    | function f =>
      have hfunction := wp_function h hus
      have hword : (if f.blocks.isEmpty then "declare" else "define") =
          if !f.blocks.isEmpty then "define" else "declare" := by
        cases f.blocks.isEmpty <;> rfl
      simp only [Entity.tokens, List.cons_append, List.head?_cons, hword, wordEntity_function,
        bind_assoc, pure_bind]
      apply wp_bind takes_advance
      apply wp_bind'
      intro c hc
      obtain ⟨t, c', hrun, ht, hleft⟩ := hfunction c hc
      refine ⟨t, c', hrun, wp_pure ⟨_, rfl, ?_, hleft⟩⟩
      simp [ProgramTree.unlined, Entity.add, ht]
    | group id attributes =>
      refine Takes.wp (?_ : Takes _ _ (Step.again
        { tree with groups := tree.groups ++ [(id, attributes)] }) us) ⟨_, rfl, rfl, rfl⟩
      simp [Entity.tokens, wordEntity, isEntityWord, takes_bind (takes_attributeGroup id attributes),
        -bind_pure_comp]

/-- No named type stands behind a global. -/
def TypesFirst (es : List Entity) : Prop :=
  es.Pairwise fun e e' => e.isGlobal = true → e'.isNamedType = false

theorem startsEntity_flatMap (es : List Entity) :
    startsEntity (es.flatMap Entity.tokens) = true := by
  cases es with
  | nil => rfl
  | cons e es => exact startsEntity_tokens e

theorem entity_length_pos (e : Entity) : 0 < e.tokens.length := by
  cases e <;> simp [Entity.tokens, GlobalTree.tokens]

theorem wp_program {es : List Entity} (h : ∀ e ∈ es, e.Reads) (hfirst : TypesFirst es) :
    Wp program (fun tree _ => tree.unlined = es.foldl Entity.add {}) (es.flatMap Entity.tokens) := by
  obtain ⟨step, hprogram, hend, hstep⟩ := program_steps
  rw [hprogram]
  refine wp_repeatStep (I := fun tree ts => ∃ rest : List Entity, ts = rest.flatMap Entity.tokens ∧
    rest.foldl Entity.add tree.unlined = es.foldl Entity.add {} ∧ (∀ e ∈ rest, e.Reads) ∧
    TypesFirst rest) ?_ ⟨es, rfl, rfl, h, hfirst⟩
  rintro tree ts ⟨rest, rfl, hfold, hreads, hfirst⟩
  cases rest with
  | nil => exact (hend tree).wp hfold
  | cons e rest =>
    have hlocal : e.isGlobal = true → ∀ name,
        (rest.flatMap Entity.tokens).head? ≠ some (.localName name) := by
      intro hglobal name
      cases rest with
      | nil => simp
      | cons e' rest =>
        exact head?_entity_ne ((List.pairwise_cons.mp hfirst).1 e' List.mem_cons_self hglobal) name
    have hread := hstep e _ (hreads e List.mem_cons_self) (startsEntity_flatMap rest) hlocal tree
    intro c hc
    obtain ⟨x, c', hrun, tree', rfl, htree, hleft⟩ := hread c hc
    refine ⟨_, c', hrun, ⟨rest, hleft, by rw [htree]; exact hfold,
      fun e' he' => hreads e' (List.mem_cons_of_mem e he'), (List.pairwise_cons.mp hfirst).2⟩, ?_⟩
    have := entity_length_pos e
    simp only [hleft, List.flatMap_cons, List.length_append]
    omega

/-- Entities are read from a text that is cut into their tokens. -/
theorem readTree_of_lexes {source : String} {es : List Entity}
    (hlex : Lexes source.toList (es.flatMap Entity.tokens)) (h : ∀ e ∈ es, e.Reads)
    (hfirst : TypesFirst es) :
    ∃ tree, readTree source = .ok tree ∧ tree.unlined = es.foldl Entity.add {} := by
  obtain ⟨xs, hxs, htokens⟩ := hlex source.toList.length 1 (Nat.le_refl _)
  obtain ⟨tree, c, hrun, htree⟩ := wp_program h hfirst ⟨xs, 1⟩ htokens
  refine ⟨tree, ?_, htree⟩
  simp only [readTree, tokens, hxs]
  change (program ⟨xs, 1⟩ >>= fun x => pure x.1) = _
  rw [hrun]
  rfl

end QirProfile.Assembly
