import QirProfile.Proofs.Assembly.Proceeding

/-!
# Reading programs goes forward

The readers of instructions, globals, functions and programs proceed, and what they give can be written
again. So a text is refused for a reason that is reported, and a tree that was read holds only types,
words and numbers that can be read back.
-/

namespace QirProfile.Assembly

open Text

variable {blocks : List BlockTree} {op : Operation} {tree : ProgramTree} {source : String}

/-! ## 1. Trees that can be written -/

/-- The operation can be read back, with some type for its call to write. -/
def Operation.IsWritable (op : Operation) : Prop := ∃ written, op.Reads written

/-- The operations of a block can be written. -/
def BlockTree.IsWritable (b : BlockTree) : Prop := Every (fun i => i.operation.IsWritable) b.instrs

/-- A function with types and words that can be written. -/
structure FuncTree.IsWritable (t : FuncTree) : Prop where
  linkage : ∀ word ∈ t.linkage, isLinkage word = true
  ret : t.ret.Fits
  params : Every (fun param : Ty × Option Symbol => param.1.Fits) t.params
  unnamedAddr : ∀ word ∈ t.unnamedAddr, Reader.isAddressMarker word = true
  blocks : Every BlockTree.IsWritable t.blocks

/-- A program with types and words that can be written. -/
structure ProgramTree.IsWritable (tree : ProgramTree) : Prop where
  types : Every (fun x : String × Option Ty => ∀ t ∈ x.2, t.Fits) tree.namedTypes
  globals : Every GlobalTree.Reads tree.globals
  functions : Every FuncTree.IsWritable tree.functions

/-- Only the first block may have no label. -/
def EntryOnly (blocks : List BlockTree) : Prop :=
  ∀ label ∈ (blocks.map BlockTree.label).tail, label ≠ none

theorem EntryOnly.concat (h : EntryOnly blocks) (s : Symbol) :
    EntryOnly (blocks ++ [⟨some s, []⟩]) := by
  cases blocks with
  | nil => exact nofun
  | cons b blocks =>
    intro label hlabel
    rcases List.mem_append.mp (by simpa using hlabel : label ∈ blocks.map BlockTree.label ++ [some s])
      with hlabel | hlabel
    · exact h label hlabel
    · rw [List.mem_singleton.mp hlabel]
      exact Option.some_ne_none s

theorem EntryOnly.push (h : EntryOnly blocks) (i : InstrTree) :
    EntryOnly (Reader.pushInstr blocks i) := by
  unfold Reader.pushInstr
  split
  · rename_i b hb
    have hsame : (blocks.dropLast ++ [{ b with instrs := b.instrs ++ [i] }]).map BlockTree.label =
        blocks.map BlockTree.label := by
      conv_rhs => rw [← List.dropLast_append_getLast? b hb]
      simp
    rw [EntryOnly, hsame]
    exact h
  · exact nofun

namespace Reader

variable {φ : Prop} {n : Nat}

/-! ## 2. Operations -/

theorem goes_branch : Goes n branch Operation.IsWritable φ := by
  refine proceeds_at?_bind ?_ ?_
  · exact (proceeds_seq consumes_label fun _ => goes_pure _ fun _ => ⟨.void, trivial⟩).ahead
  · exact proceeds_bind (proceeds_typed consumes_term.moves) fun _ hcond =>
      proceeds_seq (consumes_expect _) fun _ => proceeds_seq consumes_label fun _ =>
      proceeds_seq (consumes_expect _) fun _ => proceeds_seq consumes_label fun _ =>
      goes_pure _ fun hφ => ⟨.void, (hcond hφ).1, (hcond hφ).2.ne (.inr rfl) rfl⟩

/-- The step of the loop over the cases of a `switch`. -/
def caseStep (cases : List (TypedTerm × Assembly.Symbol)) :
    Reader (Step (List (TypedTerm × Assembly.Symbol)) (List (TypedTerm × Assembly.Symbol))) := do
  if ← accept .rightBracket then return .done cases
  let value ← typedTerm
  expect .comma
  let dest ← label
  return .again (cases ++ [(value, dest)])

/-- The values of the cases fit. -/
abbrev CasesFit : List (TypedTerm × Assembly.Symbol) → Prop := Every fun x => x.1.Fits

theorem steps_caseStep {cases : List (TypedTerm × Assembly.Symbol)} (hcases : φ → CasesFit cases) :
    Steps n (caseStep cases) (Step.Keeps CasesFit CasesFit) φ := by
  refine proceeds_seq (goes_accept _) fun closed => ?_
  split
  · exact steps_done _ hcases
  · exact consumes_bind consumes_typedTerm fun _ hvalue => proceeds_seq (consumes_expect _) fun _ =>
      proceeds_seq consumes_label fun _ => goes_pure _ fun hφ => (hcases hφ).concat (hvalue hφ)

theorem goes_switch : Goes n switch Operation.IsWritable φ :=
  proceeds_bind consumes_typedTerm fun _ hcond => proceeds_seq (consumes_expect _) fun _ =>
    proceeds_seq consumes_label fun _ => proceeds_seq (consumes_expect _) fun _ =>
    proceeds_bind (proceeds_repeatStep CasesFit (fun _ => steps_caseStep) fun _ => every_nil)
      fun _ hcases => goes_pure _ fun hφ => ⟨.void, hcond hφ, hcases hφ⟩

/-- The step of the loop over the words before the result type of a call. -/
def resultWordStep (_ : Unit) : Reader (Step Unit Unit) := do
  match ← peek with
  | some (.keyword word) =>
    if isTypeWord word then return .done ()
    advance
    skipParens
    return .again ()
  | _ => return .done ()

theorem steps_resultWordStep (u : Unit) : Steps n (resultWordStep u) := by
  refine proceeds_peek_bind (steps_end _) fun t => ?_
  split
  · split
    · exact steps_end _
    · exact steps_advance (proceeds_seq goes_skipParens fun _ => goes_return _)
  · exact steps_end _

/-- The result of a call whose type could be written. -/
def IsCallResult (ret : Ty) : Prop := ∃ written : Ty, written.Fits ∧ written.callResult = ret

theorem goes_callResult : Goes n callResult IsCallResult φ := by
  refine proceeds_seq (goes_repeatStep steps_resultWordStep) fun _ =>
    proceeds_bind consumes_type fun t ht => ?_
  cases t with
  | func r ts varArg => exact goes_pure _ fun hφ => ⟨_, ht hφ, rfl⟩
  | _ => exact goes_pure _ fun hφ => ⟨_, ht hφ, rfl⟩

/-- The step of the loop over attribute groups behind the arguments of a call. -/
def groupStep (_ : Unit) : Reader (Step Unit Unit) := do
  match ← peek with
  | some (.groupId _) =>
    advance
    return .again ()
  | _ => return .done ()

theorem steps_groupStep (u : Unit) : Steps n (groupStep u) := by
  refine proceeds_peek_bind (steps_end _) fun t => ?_
  split
  · exact steps_advance (goes_return _)
  · exact steps_end _

theorem goes_callArguments : Goes n callArguments (Every TypedTerm.Fits) φ := by
  refine proceeds_seq (consumes_expect _) fun _ => proceeds_seq (goes_accept _) fun closed => ?_
  split
  · exact goes_pure _ fun _ => every_nil
  · exact proceeds_bind (goes_commaSeparated consumes_typedTerm.moves) fun _ hargs =>
      proceeds_seq (consumes_expect _) fun _ =>
      proceeds_seq (goes_repeatStep steps_groupStep) fun _ => goes_pure _ hargs

theorem goes_call (marker : TailMarker) : Goes n (call marker) Operation.IsWritable φ :=
  proceeds_bind goes_callResult fun _ hret => proceeds_bind consumes_term fun _ hcallee =>
    proceeds_bind goes_callArguments fun _ hargs => goes_pure _ fun hφ =>
      let ⟨written, hfits, hwritten⟩ := hret hφ
      ⟨written, hfits, hwritten, hcallee hφ, hargs hφ⟩

theorem goes_markedCall (marker : TailMarker) : Goes n (markedCall marker) Operation.IsWritable φ :=
  proceeds_seq (consumes_expectWord _) fun _ => goes_call marker

theorem goes_invoke : Goes n invoke Operation.IsWritable φ :=
  proceeds_bind goes_callResult fun _ hret => proceeds_bind consumes_term fun _ hcallee =>
    proceeds_bind goes_callArguments fun _ hargs => proceeds_seq (consumes_expectWord _) fun _ =>
    proceeds_seq consumes_label fun _ => proceeds_seq (consumes_expectWord _) fun _ =>
    proceeds_seq consumes_label fun _ => goes_pure _ fun hφ =>
      let ⟨written, hfits, hwritten⟩ := hret hφ
      ⟨written, hfits, hwritten, hcallee hφ, hargs hφ⟩

/-- The step of the loop over the flags of an arithmetic operation. -/
def operatorFlagStep (_ : Unit) : Reader (Step Unit Unit) := do
  match ← peek with
  | some (.keyword word) =>
    if isOperatorFlag word then
      advance
      return .again ()
    return .done ()
  | _ => return .done ()

theorem steps_operatorFlagStep (u : Unit) : Steps n (operatorFlagStep u) := by
  refine proceeds_peek_bind (steps_end _) fun t => ?_
  split
  · split
    · exact steps_advance (goes_return _)
    · exact steps_end _
  · exact steps_end _

theorem goes_skipOperatorFlags : Goes n skipOperatorFlags := goes_repeatStep steps_operatorFlagStep

theorem goes_comparison : Goes n comparison := by
  refine proceeds_seq (consumes_next (by decide)) fun found => ?_
  split
  · split
    · exact goes_return _
    · exact proceeds_unexpected _ _
  · exact proceeds_unexpected _ _

theorem goes_atTrailing? : Goes n atTrailing? := by
  refine proceeds_seq goes_peekSecond fun t => ?_
  split
  · exact goes_return _
  · exact goes_return _
  · exact goes_return _

/-- The step of the loop over the indices of an address computation. -/
def indexStep (items : List TypedTerm) : Reader (Step (List TypedTerm) (List TypedTerm)) := do
  if (← at? .comma) && !(← atTrailing?) then
    advance
    return .again (items ++ [← typedTerm])
  return .done items

theorem steps_indexStep {items : List TypedTerm} (hitems : φ → Every TypedTerm.Fits items) :
    Steps n (indexStep items) (Step.Keeps (Every TypedTerm.Fits) (Every TypedTerm.Fits)) φ := by
  refine proceeds_seq (goes_at? _) fun comma => proceeds_seq goes_atTrailing? fun ends => ?_
  split
  · exact proceeds_seq goes_advance fun _ => consumes_bind consumes_typedTerm fun _ ht =>
      goes_pure _ fun hφ => (hitems hφ).concat (ht hφ)
  · exact steps_done _ hitems

theorem goes_gepIndices : Goes n gepIndices (Every TypedTerm.Fits) φ :=
  proceeds_repeatStep (Every TypedTerm.Fits) (fun _ => steps_indexStep) fun _ => every_nil

/-- The step of the loop over the incoming values of a phi. -/
def incomingStep (items : List (Term × Assembly.Symbol)) :
    Reader (Step (List (Term × Assembly.Symbol)) (List (Term × Assembly.Symbol))) := do
  expect .leftBracket
  let value ← term
  expect .comma
  let block ← localSymbol
  expect .rightBracket
  let items := items ++ [(value, block)]
  if (← at? .comma) && (← peekSecond) = some .leftBracket then
    advance
    return .again items
  return .done items

/-- The incoming values fit. -/
abbrev IncomingFits : List (Term × Assembly.Symbol) → Prop := Every fun x => x.1.Fits

theorem steps_incomingStep {items : List (Term × Assembly.Symbol)} (hitems : φ → IncomingFits items) :
    Steps n (incomingStep items)
      (Step.Keeps IncomingFits fun items => items ≠ [] ∧ IncomingFits items) φ := by
  refine consumes_seq (consumes_expect _) fun _ => proceeds_bind consumes_term fun _ hvalue =>
    proceeds_seq (consumes_expect _) fun _ => proceeds_seq consumes_localSymbol fun _ =>
    proceeds_seq (consumes_expect _) fun _ => proceeds_seq (goes_at? _) fun comma =>
    proceeds_seq goes_peekSecond fun second => ?_
  split
  · exact proceeds_seq goes_advance fun _ => goes_pure _ fun hφ => (hitems hφ).concat (hvalue hφ)
  · exact goes_pure _ fun hφ => ⟨by simp, (hitems hφ).concat (hvalue hφ)⟩

theorem goes_incoming :
    Goes n incoming (fun items => items ≠ [] ∧ IncomingFits items) φ :=
  proceeds_repeatStep IncomingFits (fun _ => steps_incomingStep) fun _ => every_nil

theorem goes_operation (word : String) (line : Nat) :
    Goes n (operation word line) Operation.IsWritable φ := by
  unfold operation
  split
  · exact proceeds_accept (goes_pure _ fun _ => ⟨.void, trivial⟩)
      (proceeds_bind (proceeds_typed consumes_term.moves) fun _ hvalue => goes_pure _ fun hφ =>
        ⟨.void, (hvalue hφ).1, (hvalue hφ).2.ne (.inl rfl) rfl⟩)
  · exact goes_branch
  · exact goes_switch
  · exact goes_pure _ fun _ => ⟨.void, trivial⟩
  · exact goes_call _
  · exact goes_markedCall _
  · exact goes_markedCall _
  · exact goes_markedCall _
  · exact goes_invoke
  · exact proceeds_seq goes_comparison fun _ => proceeds_bind consumes_type fun _ hty =>
      proceeds_bind consumes_term fun _ hlhs => proceeds_seq (consumes_expect _) fun _ =>
      proceeds_bind consumes_term fun _ hrhs =>
      goes_pure _ fun hφ => ⟨.void, hty hφ, hlhs hφ, hrhs hφ⟩
  · exact proceeds_seq (goes_accept _) fun _ => proceeds_bind consumes_type fun _ hty =>
      proceeds_seq (consumes_expect _) fun _ => proceeds_bind consumes_typedTerm fun _ hptr =>
      goes_pure _ fun hφ => ⟨.void, hty hφ, hptr hφ, by simp⟩
  · exact proceeds_seq (goes_accept _) fun _ => proceeds_bind consumes_typedTerm fun _ hvalue =>
      proceeds_seq (consumes_expect _) fun _ => proceeds_bind consumes_typedTerm fun _ hptr =>
      goes_pure _ fun hφ => ⟨.void, hvalue hφ, hptr hφ, by simp⟩
  · exact proceeds_bind consumes_type fun _ hty => goes_pure _ fun hφ => ⟨.void, hty hφ, by simp⟩
  · exact proceeds_seq (goes_accept _) fun _ => proceeds_bind consumes_type fun _ hsource =>
      proceeds_seq (consumes_expect _) fun _ => proceeds_bind consumes_typedTerm fun _ hbase =>
      proceeds_bind goes_gepIndices fun _ hindices =>
      goes_pure _ fun hφ => ⟨.void, hsource hφ, hbase hφ, hindices hφ⟩
  · exact proceeds_bind consumes_typedTerm fun _ hcond => proceeds_seq (consumes_expect _) fun _ =>
      proceeds_bind consumes_typedTerm fun _ htrue => proceeds_seq (consumes_expect _) fun _ =>
      proceeds_bind consumes_typedTerm fun _ hfalse =>
      goes_pure _ fun hφ => ⟨.void, hcond hφ, htrue hφ, hfalse hφ⟩
  · exact proceeds_bind consumes_type fun _ hty => proceeds_bind goes_incoming fun _ hitems =>
      goes_pure _ fun hφ => ⟨.void, hty hφ, hitems hφ⟩
  · split
    · exact proceeds_seq goes_skipOperatorFlags fun _ => proceeds_bind consumes_type fun _ hty =>
        proceeds_bind consumes_term fun _ hlhs => proceeds_seq (consumes_expect _) fun _ =>
        proceeds_bind consumes_term fun _ hrhs =>
        goes_pure _ fun hφ => ⟨.void, hty hφ, hlhs hφ, hrhs hφ⟩
    · exact proceeds_bind consumes_typedTerm fun _ hvalue =>
        proceeds_seq (consumes_expectWord _) fun _ => proceeds_bind consumes_type fun _ htarget =>
        goes_pure _ fun hφ => ⟨.void, hvalue hφ, htarget hφ⟩
    · exact proceeds_throw (.unknownInstruction _ _)

/-! ## 3. Instructions -/

theorem isWritable_withAlign {align : Nat} (h : op.IsWritable)
    (halign : align < span 32) : (op.withAlign align).IsWritable := by
  obtain ⟨written, h⟩ := h
  refine ⟨written, ?_⟩
  have hsome : ∀ n ∈ some align, n < span 32 := fun n hn => Option.some.inj hn ▸ halign
  cases op with
  | load ty ptr old => exact ⟨h.1, h.2.1, hsome⟩
  | store value ptr old => exact ⟨h.1, h.2.1, hsome⟩
  | alloca ty old => exact ⟨h.1, hsome⟩
  | _ => exact h

/-- The step of the loop over alignments and metadata behind an operation. -/
def trailingStep (op : Operation) : Reader (Step Operation Operation) := do
  if (← at? .comma) && (← atTrailing?) then
    advance
    if ← acceptWord "align" then return .again (op.withAlign (← number32))
    advance
    skipMetadata
    return .again op
  return .done op

theorem steps_trailingStep (hop : φ → op.IsWritable) :
    Steps n (trailingStep op) (Step.Keeps Operation.IsWritable Operation.IsWritable) φ := by
  refine proceeds_seq (goes_at? _) fun comma => proceeds_seq goes_atTrailing? fun ends => ?_
  split
  · refine proceeds_seq goes_advance fun _ => proceeds_seq (goes_accept _) fun align => ?_
    split
    · exact consumes_bind consumes_number32 fun _ hn =>
        goes_pure _ fun hφ => isWritable_withAlign (hop hφ) (hn hφ)
    · exact proceeds_seq goes_advance fun _ => consumes_seq consumes_skipMetadata fun _ =>
        goes_pure _ hop
  · exact steps_done _ hop

theorem goes_trailing (h : φ → op.IsWritable) :
    Goes n (trailing op) Operation.IsWritable φ :=
  proceeds_repeatStep Operation.IsWritable (fun _ => steps_trailingStep) h

theorem goes_result? : Goes n result? := by
  refine proceeds_seq goes_peek fun first => proceeds_seq goes_peekSecond fun second => ?_
  split
  · exact proceeds_seq consumes_localSymbol fun _ => proceeds_seq (consumes_expect _) fun _ =>
      goes_return _
  · exact proceeds_seq consumes_localSymbol fun _ => proceeds_seq (consumes_expect _) fun _ =>
      goes_return _
  · exact goes_return _

theorem consumes_instruction : Consumes n instruction (fun i => i.operation.IsWritable) φ := by
  refine proceeds_seq goes_result? fun _ => consumes_seq (consumes_next (by decide)) fun found => ?_
  split
  · exact proceeds_seq goes_get fun _ => proceeds_bind (goes_operation _ _) fun _ hop =>
      proceeds_bind (goes_trailing hop) fun _ hop => goes_pure _ hop
  · exact proceeds_unexpected _ _

/-! ## 4. Attributes and globals -/

theorem consumes_stringAttribute : Consumes n stringAttribute := by
  refine consumes_seq consumes_string fun _ => proceeds_seq (goes_accept _) fun more => ?_
  split
  · exact proceeds_seq consumes_string fun _ => goes_return _
  · exact goes_return _

theorem goes_keywordAttribute (word : String) : Goes n (keywordAttribute word) := by
  refine proceeds_seq (goes_at? _) fun open_ => ?_
  split
  · exact proceeds_seq goes_get fun _ => proceeds_seq goes_skipGroup fun _ =>
      proceeds_seq goes_get fun _ => goes_return _
  · refine proceeds_seq (goes_accept _) fun equals => ?_
    split
    · exact proceeds_seq (consumes_next (by decide)) fun _ => goes_return _
    · exact goes_return _

/-- The step of the loop over the attributes of a group. -/
def attributeStep (items : List Attribute) : Reader (Step (List Attribute) (List Attribute)) := do
  match ← peek with
  | some .rightBrace =>
    advance
    return .done items
  | some (.string _) => return .again (items ++ [← stringAttribute])
  | some (.keyword word) =>
    advance
    return .again (items ++ [← keywordAttribute word])
  | some other => unexpected "attribute" other
  | none => throw (.unexpectedEnd "expected '\x7d'")

theorem steps_attributeStep (items : List Attribute) : Steps n (attributeStep items) := by
  refine proceeds_peek_bind (proceeds_throw (.unexpectedEnd (by decide))) fun t => ?_
  split
  · exact steps_advance (goes_return _)
  · exact consumes_seq consumes_stringAttribute.ahead fun _ => goes_return _
  · exact steps_advance (proceeds_seq (goes_keywordAttribute _) fun _ => goes_return _)
  · exact proceeds_unexpected _ _
  · exact proceeds_throw (.unexpectedEnd (by decide))

theorem consumes_attributeGroup : Consumes n attributeGroup := by
  refine consumes_seq (consumes_next (by decide)) fun found => ?_
  extract_lets rest
  have hrest : ∀ id, Goes n (rest id) := fun id =>
    proceeds_seq (consumes_expect _) fun _ => proceeds_seq (consumes_expect _) fun _ =>
    proceeds_seq (goes_repeatStep steps_attributeStep) fun _ => goes_return _
  split
  · exact proceeds_pure_bind (hrest _)
  · exact proceeds_refused fun _ => ⟨_, rfl, .unexpectedToken _ _ _⟩

/-- The step of the loop over the words before a global's type. -/
def globalWordStep : Option String × Option String →
    Reader (Step (Option String × Option String) (Option String × Option String × Bool)) :=
  fun (linkage, marker) => do
    match ← next "expected 'global' or 'constant'" with
    | .keyword "global" => return .done (linkage, marker, false)
    | .keyword "constant" => return .done (linkage, marker, true)
    | .keyword word =>
      if isAddressMarker word then return .again (linkage, some word)
      if linkages.contains word then return .again (some word, marker)
      skipParens
      return .again (linkage, marker)
    | other => unexpected "'global' or 'constant'" other

/-- A linkage and a marker of its own kind. -/
def AreWords (linkage marker : Option String) : Prop :=
  (∀ word ∈ linkage, isLinkage word = true) ∧ ∀ word ∈ marker, isAddressMarker word = true

theorem steps_globalWordStep {x : Option String × Option String} (hx : φ → AreWords x.1 x.2) :
    Steps n (globalWordStep x)
      (Step.Keeps (fun x => AreWords x.1 x.2) fun x => AreWords x.1 x.2.1) φ := by
  refine consumes_seq (consumes_next (by decide)) fun found => ?_
  split
  · exact goes_pure _ hx
  · exact goes_pure _ hx
  · split
    · rename_i word _ _ hword
      exact goes_pure _ fun hφ => ⟨(hx hφ).1, fun w hw => Option.some.inj hw ▸ hword⟩
    · split
      · rename_i word _ _ _ hword
        exact goes_pure _ fun hφ => ⟨fun w hw => Option.some.inj hw ▸ hword, (hx hφ).2⟩
      · exact proceeds_seq goes_skipParens fun _ => goes_pure _ hx
  · exact proceeds_unexpected _ _

theorem goes_globalWords : Goes n globalWords (fun x => AreWords x.1 x.2.1) φ :=
  proceeds_repeatStep (fun x => AreWords x.1 x.2) (fun _ => steps_globalWordStep)
    fun _ => ⟨by simp, by simp⟩

/-- The step of the loop over the properties behind a global. -/
def globalPropertyStep (align : Option Nat) : Reader (Step (Option Nat) (Option Nat)) := do
  if ← accept .comma then
    match ← next "expected global property" with
    | .keyword "align" => return .again (some (← number32))
    | .keyword "section" | .keyword "partition" =>
      let _ ← string
      return .again align
    | .keyword "comdat" =>
      skipParens
      return .again align
    | .metadataName _ =>
      skipMetadata
      return .again align
    | other => unexpected "global property" other
  return .done align

/-- An alignment of 32 bits, or none. -/
def AlignFits (align : Option Nat) : Prop := ∀ n ∈ align, n < span 32

theorem steps_globalPropertyStep {align : Option Nat} (h : φ → AlignFits align) :
    Steps n (globalPropertyStep align) (Step.Keeps AlignFits AlignFits) φ := by
  refine proceeds_accept ?_ (steps_done _ h)
  refine proceeds_seq (consumes_next (by decide)) fun found => ?_
  split
  · exact proceeds_bind consumes_number32 fun _ hn =>
      goes_pure _ fun hφ _ hm => Option.some.inj hm ▸ hn hφ
  · exact proceeds_seq consumes_string fun _ => goes_pure _ h
  · exact proceeds_seq consumes_string fun _ => goes_pure _ h
  · exact proceeds_seq goes_skipParens fun _ => goes_pure _ h
  · exact proceeds_seq consumes_skipMetadata fun _ => goes_pure _ h
  · exact proceeds_unexpected _ _

theorem goes_globalProperties : Goes n globalProperties AlignFits φ :=
  proceeds_repeatStep AlignFits (fun _ => steps_globalPropertyStep) fun _ => nofun

theorem consumes_globalVariable : Consumes n globalVariable GlobalTree.Reads φ := by
  refine consumes_seq consumes_globalSymbol fun name => proceeds_seq (consumes_expect _) fun _ =>
    proceeds_bind goes_globalWords fun words hwords => ?_
  refine proceeds_bind consumes_type fun ty hty => proceeds_seq goes_atTerm? fun here => ?_
  extract_lets rest
  have hrest : ∀ init : Option Term, (φ → ∀ t ∈ init, t.Fits) →
      Goes n (rest init) GlobalTree.Reads φ := fun init hinit =>
    proceeds_bind goes_globalProperties fun _ halign => goes_pure _ fun hφ =>
      ⟨(hwords hφ).1, (hwords hφ).2, hty hφ, hinit hφ, halign hφ⟩
  split
  · exact proceeds_bind (goes_map (consumes_term.moves.post fun _ _ ht _ hu => Option.some.inj hu ▸ ht))
      hrest
  · exact proceeds_pure_bind (hrest _ fun _ => by simp)

/-! ## 5. Functions -/

/-- The step of the loop over the words before a function's result type. -/
def functionWordStep (linkage : Option String) : Reader (Step (Option String) (Option String)) := do
  match ← peek with
  | some (.keyword word) =>
    if isTypeWord word then return .done linkage
    advance
    skipParens
    return .again (if linkages.contains word then some word else linkage)
  | _ => return .done linkage

/-- The word of a linkage, or none. -/
def IsLinkageOf (linkage : Option String) : Prop := ∀ word ∈ linkage, isLinkage word = true

theorem steps_functionWordStep {linkage : Option String} (h : φ → IsLinkageOf linkage) :
    Steps n (functionWordStep linkage) (Step.Keeps IsLinkageOf IsLinkageOf) φ := by
  refine proceeds_peek_bind (steps_done _ h) fun t => ?_
  split
  · split
    · exact steps_done _ h
    · refine steps_advance (proceeds_seq goes_skipParens fun _ => goes_pure _ fun hφ => ?_)
      change IsLinkageOf (if linkages.contains _ = true then _ else linkage)
      split
      · rename_i hword
        exact fun w hw => Option.some.inj hw ▸ hword
      · exact h hφ
  · exact steps_done _ h

theorem goes_functionWords : Goes n functionWords IsLinkageOf φ :=
  proceeds_repeatStep IsLinkageOf (fun _ => steps_functionWordStep) fun _ => nofun

/-- The step of the loop over the parameters of a function. -/
def functionParamStep : List (Ty × Option Assembly.Symbol) × Bool →
    Reader (Step (List (Ty × Option Assembly.Symbol) × Bool)
      (List (Ty × Option Assembly.Symbol) × Bool)) := fun (params, varArg) => do
  if ← accept .rightParen then return .done (params, varArg)
  let (params, varArg) ←
    if ← accept .ellipsis then pure (params, true)
    else do
      let ty ← type
      skipParamAttributes
      let symbol ← do
        match ← peek with
        | some (.localName _) | some (.localId _) => some <$> localSymbol
        | _ => pure none
      pure (params ++ [(ty, symbol)], varArg)
  if ← accept .comma then return .again (params, varArg)
  expect .rightParen
  return .done (params, varArg)

/-- The types of the parameters fit. -/
def ParamsFit (x : List (Ty × Option Assembly.Symbol) × Bool) : Prop :=
  Every (fun param => param.1.Fits) x.1

theorem steps_functionParamStep {x : List (Ty × Option Assembly.Symbol) × Bool}
    (hx : φ → ParamsFit x) : Steps n (functionParamStep x) (Step.Keeps ParamsFit ParamsFit) φ := by
  refine proceeds_seq (goes_accept _) fun closed => ?_
  split
  · exact steps_done _ hx
  · refine proceeds_seq (goes_accept _) fun dots => ?_
    extract_lets rest
    have hrest : ∀ y, (φ → ParamsFit y) → Steps n (rest y) (Step.Keeps ParamsFit ParamsFit) φ :=
      fun y hy => proceeds_accept (goes_pure _ hy)
        (proceeds_seq (consumes_expect _).ahead fun _ => steps_done _ hy)
    split
    · exact proceeds_pure_bind (hrest (x.1, true) hx)
    · refine proceeds_bind consumes_type fun ty hty => proceeds_seq goes_skipParamAttributes fun _ =>
        proceeds_seq goes_peek fun t => ?_
      extract_lets behind
      have hbehind : ∀ symbol, Steps n (behind symbol) (Step.Keeps ParamsFit ParamsFit) φ :=
        fun symbol => proceeds_pure_bind
          (hrest (x.1 ++ [(ty, symbol)], x.2) fun hφ => (hx hφ).concat (hty hφ))
      split
      · exact proceeds_seq (goes_map (R := fun _ => True) consumes_localSymbol.goes) hbehind
      · exact proceeds_seq (goes_map (R := fun _ => True) consumes_localSymbol.goes) hbehind
      · exact proceeds_pure_bind (hbehind _)

theorem goes_functionParams : Goes n functionParams ParamsFit φ :=
  proceeds_repeatStep ParamsFit (fun _ => steps_functionParamStep) fun _ => every_nil

/-- The marker behind the parameters is one, if there is any. -/
def TailFits (tail : FunctionTail) : Prop := ∀ word ∈ tail.unnamedAddr, isAddressMarker word = true

theorem goes_functionTailWord {tail : FunctionTail} (h : φ → TailFits tail) (word : String) :
    Goes n (functionTailWord tail word) TailFits φ := by
  unfold functionTailWord
  split
  · exact goes_pure _ fun _ w hw => Option.some.inj hw ▸ rfl
  · exact goes_pure _ fun _ w hw => Option.some.inj hw ▸ rfl
  · exact proceeds_seq consumes_string fun _ => goes_pure _ h
  · exact proceeds_seq consumes_string fun _ => goes_pure _ h
  · exact proceeds_seq consumes_string fun _ => goes_pure _ h
  · exact proceeds_seq consumes_number32 fun _ => goes_pure _ h
  · exact proceeds_seq consumes_typedTerm fun _ => goes_pure _ h
  · exact proceeds_seq consumes_typedTerm fun _ => goes_pure _ h
  · exact proceeds_seq consumes_typedTerm fun _ => goes_pure _ h
  · exact proceeds_seq goes_skipParens fun _ => goes_pure _ h
  · exact proceeds_seq (goes_keywordAttribute _) fun _ => goes_pure _ h

/-- The step of the loop over what stands behind the parameters. -/
def tailStep (tail : FunctionTail) : Reader (Step FunctionTail FunctionTail) := do
  match ← peek with
  | some (.keyword word) =>
    if isEntityWord word then return .done tail
    advance
    return .again (← functionTailWord tail word)
  | some (.groupId n) =>
    advance
    return .again { tail with groups := tail.groups ++ [n] }
  | some (.string _) =>
    return .again { tail with attributes := tail.attributes ++ [← stringAttribute] }
  | some (.metadataName _) =>
    if (← peekSecond) = some .equals then return .done tail
    advance
    skipMetadata
    return .again tail
  | _ => return .done tail

theorem steps_tailStep {tail : FunctionTail} (h : φ → TailFits tail) :
    Steps n (tailStep tail) (Step.Keeps TailFits TailFits) φ := by
  refine proceeds_peek_bind (steps_done _ h) fun t => ?_
  split
  · split
    · exact steps_done _ h
    · exact steps_advance (proceeds_bind (goes_functionTailWord h _) fun _ h => goes_pure _ h)
  · exact steps_advance (goes_pure _ h)
  · exact consumes_seq consumes_stringAttribute.ahead fun _ => goes_pure _ h
  · refine proceeds_seq goes_peekSecond.ahead fun second => ?_
    split
    · exact steps_done _ h
    · exact proceeds_seq goes_advance fun _ => consumes_seq consumes_skipMetadata fun _ =>
        goes_pure _ h
  · exact steps_done _ h

theorem functionTail_eq : functionTail = repeatStep tailStep {} := rfl

theorem goes_functionTail : Goes n functionTail TailFits φ :=
  proceeds_repeatStep TailFits (fun _ => steps_tailStep) fun _ => nofun

/-- The step of the loop over a function's body. -/
def bodyStep (blocks : List BlockTree) : Reader (Step (List BlockTree) (List BlockTree)) := do
  match ← peek with
  | none => throw (.unexpectedEnd "expected '\x7d'")
  | some .rightBrace =>
    advance
    return .done blocks
  | some (.labelName name) =>
    advance
    return .again (blocks ++ [⟨some (.named name), []⟩])
  | some (.labelId n) =>
    advance
    return .again (blocks ++ [⟨some (.numbered n), []⟩])
  | some _ => return .again (pushInstr blocks (← instruction))

theorem functionBody_eq : functionBody = repeatStep bodyStep [] := rfl

/-- The blocks of a body that can be written. -/
def IsBody (blocks : List BlockTree) : Prop := Every BlockTree.IsWritable blocks ∧ EntryOnly blocks

theorem IsBody.concat (h : IsBody blocks) (s : Assembly.Symbol) :
    IsBody (blocks ++ [⟨some s, []⟩]) :=
  ⟨h.1.concat every_nil, h.2.concat s⟩

theorem IsBody.push {i : InstrTree} (h : IsBody blocks)
    (hi : i.operation.IsWritable) : IsBody (pushInstr blocks i) := by
  refine ⟨?_, h.2.push i⟩
  unfold pushInstr
  split
  · rename_i b hb
    have hmem : b ∈ blocks := List.mem_of_getLast? hb
    exact Every.concat (fun x hx => h.1 x (List.dropLast_subset _ hx))
      (Every.concat (h.1 b hmem) hi)
  · exact Every.concat every_nil (Every.concat every_nil hi)

theorem steps_bodyStep (h : φ → IsBody blocks) :
    Steps n (bodyStep blocks) (Step.Keeps IsBody IsBody) φ := by
  refine proceeds_peek_bind (proceeds_throw (.unexpectedEnd (by decide))) fun t => ?_
  split
  · exact proceeds_throw (.unexpectedEnd (by decide))
  · exact steps_advance (goes_pure _ h)
  · exact steps_advance (goes_pure _ fun hφ => (h hφ).concat _)
  · exact steps_advance (goes_pure _ fun hφ => (h hφ).concat _)
  · exact consumes_bind consumes_instruction.ahead fun _ hi =>
      goes_pure _ fun hφ => (h hφ).push (hi hφ)

theorem goes_functionBody : Goes n functionBody IsBody φ :=
  proceeds_repeatStep IsBody (fun _ => steps_bodyStep) fun _ => ⟨every_nil, nofun⟩

/-- A function that can be written, with an unlabelled block at its entry at most. -/
def IsFunction (t : FuncTree) : Prop := t.IsWritable ∧ EntryOnly t.blocks

theorem consumes_function (isDefinition : Bool) :
    Consumes n (Reader.function isDefinition) IsFunction φ := by
  refine proceeds_bind goes_functionWords fun linkage hlinkage =>
    consumes_bind consumes_type fun ret hret =>
    proceeds_seq consumes_globalSymbol fun name => proceeds_seq (consumes_expect _) fun _ =>
    proceeds_bind goes_functionParams fun params hparams =>
    proceeds_bind goes_functionTail fun tail htail => ?_
  extract_lets rest
  have hrest : ∀ blocks, (φ → IsBody blocks) → Goes n (rest blocks) IsFunction φ :=
    fun blocks hblocks => goes_pure _ fun hφ =>
      ⟨⟨hlinkage hφ, hret hφ, hparams hφ, htail hφ, (hblocks hφ).1⟩, (hblocks hφ).2⟩
  split
  · exact proceeds_seq (consumes_expect _) fun _ => proceeds_bind goes_functionBody hrest
  · exact proceeds_pure_bind (hrest _ fun _ => ⟨every_nil, nofun⟩)

/-! ## 6. Programs -/

theorem consumes_namedType : Consumes n namedType (fun x => ∀ t ∈ x.2, t.Fits) φ := by
  refine consumes_seq consumes_localSymbol fun _ => proceeds_seq (consumes_expect _) fun _ =>
    proceeds_seq (consumes_expectWord _) fun _ => proceeds_seq (goes_accept _) fun opaque_ => ?_
  split
  · exact goes_pure _ fun _ => by simp
  · exact proceeds_bind consumes_type fun _ ht =>
      goes_pure _ fun hφ _ hu => Option.some.inj hu ▸ ht hφ

/-- A program that can be written, with functions that are. -/
def IsProgram (tree : ProgramTree) : Prop :=
  tree.IsWritable ∧ Every (fun t => EntryOnly t.blocks) tree.functions

theorem IsProgram.same {tree' : ProgramTree} (h : IsProgram tree)
    (htypes : tree'.namedTypes = tree.namedTypes) (hglobals : tree'.globals = tree.globals)
    (hfunctions : tree'.functions = tree.functions) : IsProgram tree' := by
  refine ⟨⟨?_, ?_, ?_⟩, ?_⟩
  · exact htypes ▸ h.1.types
  · exact hglobals ▸ h.1.globals
  · exact hfunctions ▸ h.1.functions
  · exact hfunctions ▸ h.2

section

variable {tree : ProgramTree} (h : φ → IsProgram tree)
include h

theorem consumes_targetLine : Consumes n (targetLine tree) IsProgram φ := by
  refine consumes_seq (consumes_next (by decide)) fun which =>
    proceeds_seq (consumes_expect _) fun _ => proceeds_seq consumes_string fun _ => ?_
  split
  · exact goes_pure _ fun hφ => (h hφ).same rfl rfl rfl
  · split
    · exact goes_pure _ fun hφ => (h hφ).same rfl rfl rfl
    · exact proceeds_unexpected _ _

theorem consumes_wordEntity (word : String) : Consumes n (wordEntity tree word) IsProgram φ := by
  have hfunction : ∀ f, (φ → IsFunction f) → φ →
      IsProgram { tree with functions := tree.functions ++ [f] } := fun f hf hφ =>
    ⟨⟨(h hφ).1.types, (h hφ).1.globals, (h hφ).1.functions.concat (hf hφ).1⟩,
      (h hφ).2.concat (hf hφ).2⟩
  unfold wordEntity
  split
  · exact proceeds_unless <| proceeds_seq goes_advance fun _ => consumes_seq (consumes_expect _)
      fun _ => proceeds_seq consumes_string fun _ => goes_pure _ fun hφ => (h hφ).same rfl rfl rfl
  · exact proceeds_unless <| proceeds_seq goes_advance fun _ => consumes_targetLine h
  · exact proceeds_unless <| proceeds_seq goes_advance fun _ =>
      consumes_bind (consumes_function true) fun f hf => goes_pure _ (hfunction f hf)
  · exact proceeds_unless <| proceeds_seq goes_advance fun _ =>
      consumes_bind (consumes_function false) fun f hf => goes_pure _ (hfunction f hf)
  · exact proceeds_unless <| proceeds_seq goes_advance fun _ =>
      consumes_seq consumes_attributeGroup fun _ => goes_pure _ fun hφ => (h hφ).same rfl rfl rfl
  · exact proceeds_unless <| proceeds_seq goes_advance fun _ => consumes_seq (consumes_expectWord _)
      fun _ => proceeds_seq consumes_string fun _ => goes_pure _ h

end

/-- The step of the loop over entities. -/
def programStep (tree : ProgramTree) : Reader (Step ProgramTree ProgramTree) := do
  match ← peek with
  | none => return .done tree
  | some (.keyword word) => return .again (← wordEntity tree word)
  | some (.localName _) | some (.localId _) =>
    return .again { tree with namedTypes := tree.namedTypes ++ [← namedType] }
  | some (.globalName _) | some (.globalId _) =>
    return .again { tree with globals := tree.globals ++ [← globalVariable] }
  | some (.metadataName _) | some (.metadataId _) =>
    advance
    expect .equals
    skipMetadata
    return .again tree
  | some other =>
    advance
    unexpected "top-level entity" other

theorem steps_programStep (h : φ → IsProgram tree) :
    Steps n (programStep tree) (Step.Keeps IsProgram IsProgram) φ := by
  have htype : ∀ x : String × Option Ty, (φ → ∀ t ∈ x.2, t.Fits) → φ →
      IsProgram { tree with namedTypes := tree.namedTypes ++ [x] } := fun x hx hφ =>
    ⟨⟨(h hφ).1.types.concat (hx hφ), (h hφ).1.globals, (h hφ).1.functions⟩, (h hφ).2⟩
  have hglobal : ∀ g, (φ → GlobalTree.Reads g) → φ →
      IsProgram { tree with globals := tree.globals ++ [g] } := fun g hg hφ =>
    ⟨⟨(h hφ).1.types, (h hφ).1.globals.concat (hg hφ), (h hφ).1.functions⟩, (h hφ).2⟩
  refine proceeds_seq goes_peek fun t => ?_
  split
  · exact steps_done _ h
  · exact consumes_bind (consumes_wordEntity h _) fun _ h => goes_pure _ h
  · exact consumes_bind consumes_namedType fun x hx => goes_pure _ (htype x hx)
  · exact consumes_bind consumes_namedType fun x hx => goes_pure _ (htype x hx)
  · exact consumes_bind consumes_globalVariable fun g hg => goes_pure _ (hglobal g hg)
  · exact consumes_bind consumes_globalVariable fun g hg => goes_pure _ (hglobal g hg)
  · exact proceeds_seq goes_advance fun _ => consumes_seq (consumes_expect _) fun _ =>
      proceeds_seq consumes_skipMetadata fun _ => goes_pure _ h
  · exact proceeds_seq goes_advance fun _ => consumes_seq (consumes_expect _) fun _ =>
      proceeds_seq consumes_skipMetadata fun _ => goes_pure _ h
  · exact proceeds_seq goes_advance fun _ => proceeds_unexpected _ _

theorem goes_program : Goes n program IsProgram φ :=
  proceeds_repeatStep IsProgram (fun _ => steps_programStep) fun _ =>
    ⟨⟨every_nil, every_nil, every_nil⟩, every_nil⟩

end Reader

/-! ## 7. Texts -/

theorem isRefusal_tokensFuel {fuel : Nat} : ∀ {line : Nat} {cs : List Char} {e : ReadError},
    tokensFuel fuel line cs = .error e → e.IsRefusal := by
  induction fuel with
  | zero =>
    intro line cs e h
    cases h
  | succ fuel ih =>
    intro line cs e h
    cases cs with
    | nil => cases h
    | cons c cs =>
      rw [tokensFuel] at h
      split at h
      · exact ih h
      · split at h
        · exact ih h
        · dsimp only at h
          split at h
          · cases h
            exact .invalidToken _ _
          · rcases except_bind_error.mp h with h | ⟨rest, -, h⟩
            · exact ih h
            · cases h

/-- A text is refused for a reason that is reported. -/
theorem isRefusal_readTree {e : ReadError} (h : readTree source = .error e) :
    e.IsRefusal := by
  rcases except_bind_error.mp h with h | ⟨xs, -, h⟩
  · exact isRefusal_tokensFuel h
  · rcases except_bind_error.mp h with h | ⟨out, -, h⟩
    · exact (Reader.goes_program (n := xs.length + 1)).refusal (Nat.lt_succ_self _) h
    · cases h

theorem Token.InRange.fits {t : Token} (h : t.InRange) : t.Fits := by
  cases t with
  | intType bits => exact h
  | _ => exact trivial

theorem isProgram_readTree (h : readTree source = .ok tree) : Reader.IsProgram tree := by
  obtain ⟨xs, hxs, h⟩ := except_bind_ok.mp h
  obtain ⟨out, hrun, h⟩ := except_bind_ok.mp h
  cases h
  have hfits : (⟨xs, 1⟩ : Cursor).Fits := fun x hx => ((tokens_bounded hxs).2 x hx).1.fits
  exact ((Reader.goes_program (n := xs.length + 1)).took _ _ _
    ⟨fun _ => hfits, trivial, Nat.lt_succ_self _⟩ hrun).2.2 trivial

/-- What was read can be written again. -/
theorem isWritable_readTree
    (h : readTree source = .ok tree) : tree.IsWritable := (isProgram_readTree h).1

end QirProfile.Assembly
