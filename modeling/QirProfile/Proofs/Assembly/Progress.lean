import QirProfile.Proofs.Assembly.Composing

/-!
# Reading makes progress

No reader gives a token back. A loop that goes round again has taken a token since it came round, and
a type or a value that is read inside another one begins behind a token of it. So the bounds in the
definitions are never reached: loops are plain loops, types and values are read by plain recursion,
and a list of tokens is read to its end or refused.
-/

namespace QirProfile.Assembly.Reader

open ReadError (IsRefusal)

variable {α β γ σ : Type} {n : Nat}

/-! ## 1. Going forward -/

/-- An answer leaves an end of the tokens, and a refusal has a reason to report. -/
structure Forward (r : Reader α) : Prop where
  suffix : ∀ c a c', r c = .ok (a, c') → c'.rest <:+ c.rest
  refused : ∀ c e, r c = .error e → e.IsRefusal

theorem forward_of_proceeds {r : Reader α} {k : α → Nat} {P : α → Prop}
    (h : ∀ {n}, Proceeds False Anything n k P r) : Forward r where
  suffix _ _ _ hrun := (h.run (Nat.lt_succ_self _) hrun).1
  refused _ _ hrun := h.refusal (Nat.lt_succ_self _) hrun

/-- The routines that a text is read with. -/
inductive Routine : {α : Type} → Reader α → Prop
  | peek : Routine peek
  | peekSecond : Routine peekSecond
  | advance : Routine advance
  | next {context : String} (h : context ≠ "") : Routine (next context)
  | at? (t : Token) : Routine (at? t)
  | accept (t : Token) : Routine (accept t)
  | expect (t : Token) : Routine (expect t)
  | expectWord (word : String) : Routine (expectWord word)
  | types (close : Token) : Routine (commaList close type)
  | typedTerms (close : Token) : Routine (commaList close typedTerm)
  | number32 : Routine number32
  | string : Routine string
  | skipGroup : Routine skipGroup
  | skipParens : Routine skipParens
  | skipMetadata : Routine skipMetadata
  | localSymbol : Routine localSymbol
  | globalSymbol : Routine globalSymbol
  | label : Routine label
  | skipParamAttributes : Routine skipParamAttributes
  | arrayLength : Routine arrayLength
  | paramTypes : Routine (paramTypes type)
  | typeHead : Routine (typeHead type)
  | typeSuffixes (head : Ty) : Routine (typeSuffixes type head)
  | type : Routine type
  | typedTerm : Routine typedTerm
  | moreTyped : Routine (moreTyped term)
  | wordConstant (word : String) : Routine (wordConstant term word)
  | term : Routine term
  | atTerm? : Routine atTerm?
  | branch : Routine branch
  | switch : Routine switch
  | callResult : Routine callResult
  | callArguments : Routine callArguments
  | call (marker : TailMarker) : Routine (call marker)
  | markedCall (marker : TailMarker) : Routine (markedCall marker)
  | invoke : Routine invoke
  | skipOperatorFlags : Routine skipOperatorFlags
  | comparison : Routine comparison
  | atTrailing? : Routine atTrailing?
  | gepIndices : Routine gepIndices
  | incoming : Routine incoming
  | operation (word : String) (line : Nat) : Routine (operation word line)
  | trailing (op : Operation) : Routine (trailing op)
  | result? : Routine result?
  | instruction : Routine instruction
  | stringAttribute : Routine stringAttribute
  | keywordAttribute (word : String) : Routine (keywordAttribute word)
  | attributeGroup : Routine attributeGroup
  | globalWords : Routine globalWords
  | globalProperties : Routine globalProperties
  | globalVariable : Routine globalVariable
  | functionWords : Routine functionWords
  | functionParams : Routine functionParams
  | functionTailWord (tail : FunctionTail) (word : String) : Routine (functionTailWord tail word)
  | functionTail : Routine functionTail
  | functionBody : Routine functionBody
  | function (isDefinition : Bool) : Routine (Reader.function isDefinition)
  | namedType : Routine namedType
  | targetLine (tree : ProgramTree) : Routine (targetLine tree)
  | wordEntity (tree : ProgramTree) (word : String) : Routine (wordEntity tree word)
  | program : Routine program

theorem Routine.forward {r : Reader α} (h : Routine r) : Forward r := by
  cases h with
  | peek => exact forward_of_proceeds goes_peek
  | peekSecond => exact forward_of_proceeds goes_peekSecond
  | advance => exact forward_of_proceeds goes_advance
  | next h => exact forward_of_proceeds (consumes_next h)
  | at? t => exact forward_of_proceeds (goes_at? t)
  | accept t => exact forward_of_proceeds (goes_accept t)
  | expect t => exact forward_of_proceeds (consumes_expect t)
  | expectWord word => exact forward_of_proceeds (consumes_expectWord word)
  | types close => exact forward_of_proceeds (goes_commaList close consumes_type.moves)
  | typedTerms close => exact forward_of_proceeds (goes_commaList close consumes_typedTerm.moves)
  | number32 => exact forward_of_proceeds consumes_number32
  | string => exact forward_of_proceeds consumes_string
  | skipGroup => exact forward_of_proceeds goes_skipGroup
  | skipParens => exact forward_of_proceeds goes_skipParens
  | skipMetadata => exact forward_of_proceeds consumes_skipMetadata
  | localSymbol => exact forward_of_proceeds consumes_localSymbol
  | globalSymbol => exact forward_of_proceeds consumes_globalSymbol
  | label => exact forward_of_proceeds consumes_label
  | skipParamAttributes => exact forward_of_proceeds goes_skipParamAttributes
  | arrayLength => exact forward_of_proceeds consumes_arrayLength
  | paramTypes => exact forward_of_proceeds (goes_paramTypes consumes_type.moves)
  | typeHead =>
    refine forward_of_proceeds (k := fun _ => 1) (P := fun t => t.Fits ∧ LeadsIn Anything t) ?_
    exact (proceeds_typeHead consumes_type.moves).within (Nat.le_succ _)
  | typeSuffixes head => exact forward_of_proceeds (goes_typeSuffixes consumes_type.moves False.elim)
  | type => exact forward_of_proceeds consumes_type
  | typedTerm => exact forward_of_proceeds consumes_typedTerm
  | moreTyped => exact forward_of_proceeds (goes_moreTyped consumes_term.moves)
  | wordConstant word => exact forward_of_proceeds (goes_wordConstant consumes_term.moves word)
  | term => exact forward_of_proceeds consumes_term
  | atTerm? => exact forward_of_proceeds goes_atTerm?
  | branch => exact forward_of_proceeds goes_branch
  | switch => exact forward_of_proceeds goes_switch
  | callResult => exact forward_of_proceeds goes_callResult
  | callArguments => exact forward_of_proceeds goes_callArguments
  | call marker => exact forward_of_proceeds (goes_call marker)
  | markedCall marker => exact forward_of_proceeds (goes_markedCall marker)
  | invoke => exact forward_of_proceeds goes_invoke
  | skipOperatorFlags => exact forward_of_proceeds goes_skipOperatorFlags
  | comparison => exact forward_of_proceeds goes_comparison
  | atTrailing? => exact forward_of_proceeds goes_atTrailing?
  | gepIndices => exact forward_of_proceeds goes_gepIndices
  | incoming => exact forward_of_proceeds goes_incoming
  | operation word line => exact forward_of_proceeds (goes_operation word line)
  | trailing op => exact forward_of_proceeds (goes_trailing False.elim)
  | result? => exact forward_of_proceeds goes_result?
  | instruction => exact forward_of_proceeds consumes_instruction
  | stringAttribute => exact forward_of_proceeds consumes_stringAttribute
  | keywordAttribute word => exact forward_of_proceeds (goes_keywordAttribute word)
  | attributeGroup => exact forward_of_proceeds consumes_attributeGroup
  | globalWords => exact forward_of_proceeds goes_globalWords
  | globalProperties => exact forward_of_proceeds goes_globalProperties
  | globalVariable => exact forward_of_proceeds consumes_globalVariable
  | functionWords => exact forward_of_proceeds goes_functionWords
  | functionParams => exact forward_of_proceeds goes_functionParams
  | functionTailWord tail word => exact forward_of_proceeds (goes_functionTailWord False.elim word)
  | functionTail => exact forward_of_proceeds goes_functionTail
  | functionBody => exact forward_of_proceeds goes_functionBody
  | function isDefinition => exact forward_of_proceeds (consumes_function isDefinition)
  | namedType => exact forward_of_proceeds consumes_namedType
  | targetLine tree => exact forward_of_proceeds (consumes_targetLine False.elim)
  | wordEntity tree word => exact forward_of_proceeds (consumes_wordEntity False.elim word)
  | program => exact forward_of_proceeds goes_program

/-! ## 2. Loops -/

/-- The loops of the routines: the routine is what stands around the loop, and the loop repeats the
    step from a first state. -/
inductive Loop : {σ β γ : Type} → Reader γ → (Reader β → Reader γ) → (σ → Reader (Step σ β)) → σ →
    Prop
  | skipGroup : Loop skipGroup id skipStep 0
  | skipParamAttributes : Loop skipParamAttributes id paramAttributeStep ()
  | types : Loop (commaSeparated type) id (itemStep type) []
  | paramTypes : Loop (paramTypes type) id (paramTypeStep type) ([], false)
  | typeSuffixes (head : Ty) : Loop (typeSuffixes type head) id (suffixStep type) head
  | typedTerms : Loop (commaSeparated typedTerm) id (itemStep typedTerm) []
  | moreTyped : Loop (moreTyped term) id (moreTypedStep term) []
  | switch : Loop switch (fun cases => do
      let cond ← typedTerm
      expect .comma
      let default ← label
      expect .leftBracket
      return .switch cond default (← cases)) caseStep []
  | callResult : Loop callResult (fun words => do
      words
      match ← type with
      | .func ret _ _ => return ret
      | ty => return ty) resultWordStep ()
  | callArguments : Loop callArguments (fun groups => do
      expect .leftParen
      if ← accept .rightParen then return []
      let args ← commaSeparated typedTerm
      expect .rightParen
      groups
      return args) groupStep ()
  | skipOperatorFlags : Loop skipOperatorFlags id operatorFlagStep ()
  | gepIndices : Loop gepIndices id indexStep []
  | incoming : Loop incoming id incomingStep []
  | trailing (op : Operation) : Loop (trailing op) id trailingStep op
  | attributeGroup : Loop attributeGroup (fun attributes => do
      let id ← do
        match ← next "expected attribute group id" with
        | .groupId n => pure n
        | other => unexpected "attribute group id" other
      expect .equals
      expect .leftBrace
      return (id, ← attributes)) attributeStep []
  | globalWords : Loop globalWords id globalWordStep (none, none)
  | globalProperties : Loop globalProperties id globalPropertyStep none
  | functionWords : Loop functionWords id functionWordStep none
  | functionParams : Loop functionParams id functionParamStep ([], false)
  | functionTail : Loop functionTail id tailStep {}
  | functionBody : Loop functionBody id bodyStep []
  | program : Loop program id programStep {}

section

variable {reader : Reader γ} {around : Reader β → Reader γ} {step : σ → Reader (Step σ β)} {start : σ}

theorem Loop.eq (h : Loop reader around step start) : reader = around (repeatStep step start) := by
  cases h <;> rfl

theorem Loop.steps (h : Loop reader around step start) (n : Nat) (s : σ) : Steps n (step s) := by
  cases h with
  | skipGroup => exact steps_skipStep s
  | skipParamAttributes => exact steps_paramAttributeStep s
  | types => exact (steps_itemStep consumes_type.moves False.elim).free
  | paramTypes => exact (steps_paramTypeStep consumes_type.moves False.elim).free
  | typeSuffixes => exact (steps_suffixStep (u := .void) consumes_type.moves False.elim).free
  | typedTerms => exact (steps_itemStep consumes_typedTerm.moves False.elim).free
  | moreTyped => exact (steps_moreTypedStep consumes_term.moves False.elim).free
  | switch => exact (steps_caseStep False.elim).free
  | callResult => exact steps_resultWordStep s
  | callArguments => exact steps_groupStep s
  | skipOperatorFlags => exact steps_operatorFlagStep s
  | gepIndices => exact (steps_indexStep False.elim).free
  | incoming => exact (steps_incomingStep False.elim).free
  | trailing => exact (steps_trailingStep False.elim).free
  | attributeGroup => exact steps_attributeStep s
  | globalWords => exact (steps_globalWordStep False.elim).free
  | globalProperties => exact (steps_globalPropertyStep False.elim).free
  | functionWords => exact (steps_functionWordStep False.elim).free
  | functionParams => exact (steps_functionParamStep False.elim).free
  | functionTail => exact (steps_tailStep False.elim).free
  | functionBody => exact (steps_bodyStep False.elim).free
  | program => exact (steps_programStep False.elim).free

end

/-- A step that asks for another one has taken a token. -/
def Advances (step : σ → Reader (Step σ β)) : Prop :=
  ∀ s c s' c', step s c = .ok (.again s', c') →
    c'.rest <:+ c.rest ∧ c'.rest.length < c.rest.length

/-- The loop is the plain loop, takes no more steps than there are tokens and one, and comes to a
    step that does not ask for another one. -/
structure Ends (step : σ → Reader (Step σ β)) : Prop where
  unfolds : ∀ s, repeatStep step s = step s >>= goOn (repeatStep step)
  bounded : ∀ s c k, c.rest.length < k → repeatFuel step k s c = repeatStep step s c
  leaves : ∀ s c, ∃ s₁ c₁, Walks step s c s₁ c₁ ∧ c₁.rest <:+ c.rest ∧
    ∀ s₂ c₂, step s₁ c₁ ≠ .ok (.again s₂, c₂)

section

variable {step : σ → Reader (Step σ β)}

theorem advances_of_steps (hstep : ∀ n s, Steps n (step s)) : Advances step := fun s c _ _ hrun =>
  (hstep (c.rest.length + 1) s).run (Nat.lt_succ_self _) hrun

theorem Advances.walks {s s' : σ} {c c' : Cursor} (h : Advances step) (hw : Walks step s c s' c') :
    c'.rest <:+ c.rest := by
  induction hw with
  | here => exact List.suffix_rfl
  | again hs _ ih => exact ih.trans (h _ _ _ _ hs).1

theorem Advances.exists_last (h : Advances step) (s : σ) (c : Cursor) :
    ∃ s₁ c₁, Walks step s c s₁ c₁ ∧ ∀ s₂ c₂, step s₁ c₁ ≠ .ok (.again s₂, c₂) := by
  induction hlength : c.rest.length using Nat.strong_induction_on generalizing s c with
  | _ k ih =>
    by_cases hagain : ∃ s' c', step s c = .ok (.again s', c')
    · obtain ⟨s', c', hs⟩ := hagain
      obtain ⟨s₁, c₁, hw, hlast⟩ := ih _ (hlength ▸ (h s c s' c' hs).2) s' c' rfl
      exact ⟨s₁, c₁, .again hs hw, hlast⟩
    · exact ⟨s, c, .here, fun s₂ c₂ hs => hagain ⟨s₂, c₂, hs⟩⟩

theorem ends_of_steps (hstep : ∀ n s, Steps n (step s)) : Ends step where
  unfolds := repeatStep_unfold hstep
  bounded s c k hk := repeatFuel_enough hstep hk (Nat.lt_succ_self _)
  leaves s c := by
    have h := advances_of_steps hstep
    obtain ⟨s₁, c₁, hw, hlast⟩ := h.exists_last s c
    exact ⟨s₁, c₁, hw, h.walks hw, hlast⟩

end

/-! ## 3. Recursion -/

/-- The body calls the reader in it behind a token only: in front of at most `n` tokens, what that
    reader does in front of `n` or more makes no difference. -/
def Guarded (body : Reader α → Reader α) : Prop :=
  ∀ n r r', Goes n r → (∀ c, c.rest.length < n → r c = r' c) →
    ∀ c, c.rest.length ≤ n → body r c = body r' c

/-- The reader is what the body makes of it, and takes a token each time. -/
structure Recurs (body : Reader α → Reader α) (r : Reader α) : Prop where
  unfolds : r = body r
  guarded : Guarded body
  taken : ∀ c a c', r c = .ok (a, c') → c'.rest <:+ c.rest ∧ c'.rest.length < c.rest.length

/-- The reader in front of less than `n` tokens, and no reader elsewhere. -/
def below (n : Nat) (r : Reader α) : Reader α := fun c =>
  if c.rest.length < n then r c else .error (.unexpectedEnd "")

section

variable {r r' : Reader α} {body : Reader α → Reader α} {within : Nat → Reader α}

theorem below_run {c : Cursor} (h : c.rest.length < n) : below n r c = r c := if_pos h

theorem goes_below {P : α → Prop} (h : Goes n r) : Goes n (below n r) P where
  took c a c' hc hrun :=
    (h.post fun _ => False.elim).took c a c' hc ((below_run hc.short).symm.trans hrun)
  refused c e hc hrun := h.refused c e hc ((below_run hc.short).symm.trans hrun)

theorem extends_below (n : Nat) (r : Reader α) : Extends n (below n r) r where
  answers c x hrun := by
    by_cases h : c.rest.length < n
    · rwa [below_run h] at hrun
    · rw [below, if_neg h] at hrun
      cases hrun
  same c h := below_run h

theorem below_congr (h : ∀ c, c.rest.length < n → r c = r' c) : below n r = below n r' := by
  funext c
  by_cases hc : c.rest.length < n
  · rw [below_run hc, below_run hc, h c hc]
  · rw [below, below, if_neg hc, if_neg hc]

section

variable {P : α → Prop}
  (hbody : ∀ {n r r'}, Goes n r P → Extends n r r' → Extends (n + 1) (body r) (body r'))
include hbody

theorem guarded_of_extends : Guarded body := by
  intro n r r' hr hsame c hc
  have hbelow : ∀ {r''}, below n r = below n r'' → body (below n r) c = body r'' c := fun h =>
    (hbody (goes_below hr) (h ▸ extends_below n _)).same c (Nat.lt_succ_of_le hc)
  exact (hbelow rfl).symm.trans (hbelow (below_congr hsame))

theorem recurs_of_nested (hwithin : ∀ depth, within (depth + 1) = body (within depth))
    (hgoes : ∀ depth, Goes depth (within depth) P) {e : ReadError} (hzero : within 0 = throw e)
    (hr : ∀ c, r c = within (c.rest.length + 1) c) (htaken : ∀ n, Consumes n r P) :
    Recurs body r where
  unfolds := by
    funext c
    rw [hr, hwithin]
    refine guarded_of_extends hbody c.rest.length _ _ (hgoes _).free (fun c' hc' => ?_) c (Nat.le_refl _)
    rw [hr]
    exact ((extends_nested hbody hwithin hgoes hzero hc').same c' (Nat.lt_succ_self _)).symm
  guarded := guarded_of_extends hbody
  taken c a c' := (htaken _).run (Nat.lt_succ_self _)

end

end

theorem recurs_type : Recurs typeBody type :=
  recurs_of_nested extends_typeBody (fun _ => rfl) goes_typeWithin rfl (fun _ => rfl)
    fun _ => consumes_type

theorem recurs_term : Recurs termBody term :=
  recurs_of_nested extends_termBody (fun _ => rfl) (fun depth => (consumes_termWithin depth).moves)
    rfl (fun _ => rfl) fun _ => consumes_term

/-! ## 4. Programs -/

theorem program_rest {c c' : Cursor} {tree : ProgramTree} (h : program c = .ok (tree, c')) :
    c'.rest = [] := by
  rw [program_eq] at h
  obtain ⟨tree₁, c₁, -, hdone⟩ := walks_of_repeatFuel h
  have hsuffix := ((steps_entityStep _ tree₁).run (Nat.lt_succ_self c₁.rest.length) hdone).1
  rw [(entityStep_done hdone).1] at hsuffix
  exact List.suffix_nil.mp hsuffix

/-- Loops advance and end, types and values nest behind a token only, no routine goes back, and a
    list of tokens is read to its end or refused. -/
theorem reading_progresses :
    (∀ {σ β γ : Type} {reader : Reader γ} {around : Reader β → Reader γ}
      {step : σ → Reader (Step σ β)} {start : σ}, Loop reader around step start →
        reader = around (repeatStep step start) ∧ Advances step ∧ Ends step) ∧
    Recurs typeBody type ∧ Recurs termBody term ∧
    (∀ {α : Type} {r : Reader α}, Routine r → Forward r) ∧
    ∀ xs line, (∃ tree line', program ⟨xs, line⟩ = .ok (tree, ⟨[], line'⟩)) ∨
      ∃ e, program ⟨xs, line⟩ = .error e ∧ e.IsRefusal := by
  refine ⟨fun h => ⟨h.eq, advances_of_steps h.steps, ends_of_steps h.steps⟩, recurs_type,
    recurs_term, Routine.forward, fun xs line => ?_⟩
  cases hrun : program ⟨xs, line⟩ with
  | error e => exact .inr ⟨e, rfl, Routine.program.forward.refused _ e hrun⟩
  | ok x =>
    obtain ⟨tree, c⟩ := x
    have hrest := program_rest hrun
    exact .inl ⟨tree, c.line, by rw [← hrest]⟩

end QirProfile.Assembly.Reader
