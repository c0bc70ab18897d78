import QirProfile.Proofs.Assembly.Reading
import QirProfile.Proofs.Assembly.Wording

/-!
# Instructions are read from their tokens

`Operation.Reads` collects what reading asks of an operation: types that fit, a returned type that
does not start with the word `void`, a condition whose type does not start with the word `label`, at
least one incoming value of a phi. `takes_operation` reads such an operation from its tokens, with
the alignment behind it; `Spelling.Renders.reads` says that what an instruction is written as is such
an operation.
-/

namespace QirProfile.Assembly

open Reader

/-! ## 1. What follows an instruction -/

/-- Whether a token goes on with the instruction in front of it. -/
def continuesInstr : Token → Bool
  | .comma | .groupId _ => true
  | t => continuesType t

/-- The tokens do not go on with an instruction in front of them. -/
def EndsInstr (ts : List Token) : Prop :=
  ∀ t ∈ ts.head?, continuesInstr t = false

variable {us : List Token}

theorem EndsInstr.endsType (h : EndsInstr us) : EndsType us := by
  intro t ht
  have := h t ht
  cases t <;> simp_all [continuesInstr, continuesType]

theorem EndsInstr.ne {t : Token} (h : EndsInstr us) (ht : continuesInstr t = true) :
    us.head? ≠ some t := by
  intro heq
  have := h t heq
  rw [ht] at this
  cases this

/-! ## 2. Trailing alignments -/

/-- Whether what follows the next token is an alignment or metadata. -/
def isTrailing (ts : List Token) : Bool :=
  match (ts[1]? : Option Token) with
  | some (.metadataName _) => true
  | some t => t.isKeyword "align"
  | none => false

theorem takes_atTrailing? (ts : List Token) : Takes atTrailing? ts (isTrailing ts) ts := by
  unfold atTrailing? isTrailing
  simp only [peekSecond_bind]
  cases ts[1]? with
  | none => simp
  | some t => cases t <;> simp

theorem takes_trailing_done {op : Operation} (h : us.head? ≠ some .comma) :
    Takes (trailing op) us op us := by
  unfold trailing
  apply Loops.takes
  apply Loops.done
  rw [at?_ne h, takes_bind (takes_atTrailing? us)]
  simp

theorem takes_number32 {n : Nat} (h : n < span 32) : Takes number32 (.integer n :: us) n us := by
  have hn : (0 : Int) ≤ n ∧ (n : Int) < span 32 := ⟨by omega, by omega⟩
  simp only [number32, next_bind]
  rw [if_pos hn]
  simp

/-- The operation with an alignment put in. -/
def Operation.aligned (op : Operation) : Option Nat → Operation
  | none => op
  | some n => op.withAlign n

theorem takes_trailing_align {op : Operation} {align : Option Nat} (h : EndsInstr us)
    (halign : ∀ n ∈ align, n < span 32) :
    Takes (trailing op) (alignTokens align ++ us) (op.aligned align) us := by
  cases align with
  | none => exact takes_trailing_done (h.ne rfl)
  | some n =>
    have hn := halign n rfl
    simp only [alignTokens, List.cons_append, List.nil_append, Operation.aligned]
    unfold trailing
    apply Loops.takes
    refine .again (?_ : Takes _ _ (Step.again (op.withAlign n)) us) ?_ (.done ?_)
    · have htrailing : isTrailing (.comma :: .keyword "align" :: .integer n :: us) = true := rfl
      simp [takes_bind (takes_atTrailing? _), htrailing, acceptWord,
        takes_bind (takes_number32 hn), -bind_pure_comp]
    · simp only [List.length_cons]
      omega
    · rw [at?_ne (h.ne rfl), takes_bind (takes_atTrailing? us)]
      simp

/-! ## 3. Symbols and labels -/

theorem takes_localSymbol (s : Symbol) : Takes localSymbol (s.localToken :: us) s us := by
  cases s <;> simp [localSymbol, Symbol.localToken]

theorem takes_label (s : Symbol) : Takes label (labelTokens s ++ us) s us := by
  simp only [label, labelTokens, List.cons_append, List.nil_append, expectWord_bind]
  exact takes_localSymbol s

theorem lead_of_head {word : String} {ty : Ty} (hword : Reader.typeOfWord? word = some ty)
    (hvoid : word = "void" ∨ word = "label") :
    (t : Ty) → (us : List Token) → (t.tokens ++ us).head? = some (.keyword word) → t.lead = ty
  | .ptr t, us, h => by
    simp only [Ty.tokens, List.append_assoc] at h
    simp only [Ty.lead]
    exact lead_of_head hword hvoid t _ h
  | .func r ts varArg, us, h => by
    simp only [Ty.tokens, List.append_assoc] at h
    simp only [Ty.lead]
    exact lead_of_head hword hvoid r _ h
  | .void, _, h | .half, _, h | .float, _, h | .double, _, h | .label, _, h | .metadata, _, h => by
    simp only [Ty.tokens, List.cons_append, List.head?_cons, Option.some.injEq,
      Token.keyword.injEq] at h
    subst h
    simp_all [Reader.typeOfWord?, Ty.lead]
  | .int _, _, h | .named _, _, h | .array _ _, _, h | .struct _, _, h => by
    simp [Ty.tokens] at h

theorem head?_typed_ne_void {t : TypedTerm} (h : t.ty.lead ≠ .void) :
    (t.tokens ++ us).head? ≠ some (.keyword "void") := by
  obtain ⟨ty, term⟩ := t
  simp only [TypedTerm.tokens, List.append_assoc]
  intro heq
  exact h (lead_of_head rfl (.inl rfl) ty _ heq)

theorem head?_typed_ne_label {t : TypedTerm} (h : t.ty.lead ≠ .label) :
    (t.tokens ++ us).head? ≠ some (.keyword "label") := by
  obtain ⟨ty, term⟩ := t
  simp only [TypedTerm.tokens, List.append_assoc]
  intro heq
  exact h (lead_of_head rfl (.inr rfl) ty _ heq)

/-! ## 4. Branches -/

theorem takes_branch_label (s : Symbol) : Takes branch (labelTokens s ++ us) (.br s) us := by
  unfold branch
  have hlabel := @takes_label us s
  simp only [labelTokens, List.cons_append, List.nil_append] at hlabel ⊢
  simp [atWord?, takes_bind hlabel, -bind_pure_comp]

theorem takes_branch_cond {cond : TypedTerm} (ifTrue ifFalse : Symbol) (hcond : cond.Fits)
    (hlead : cond.ty.lead ≠ .label) :
    Takes branch (cond.tokens ++ .comma :: (labelTokens ifTrue ++ .comma ::
      (labelTokens ifFalse ++ us))) (.condBr cond ifTrue ifFalse) us := by
  unfold branch
  rw [atWord?, at?_ne (head?_typed_ne_label hlead)]
  simp only [Bool.false_eq_true, if_false]
  rw [takes_bind (takes_typedTerm hcond), expect_bind, takes_bind (takes_label ifTrue), expect_bind,
    takes_bind (takes_label ifFalse)]
  simp

theorem takes_switch {cond : TypedTerm} (default : Symbol) {cases : List (TypedTerm × Symbol)}
    (hcond : cond.Fits) (hcases : ∀ x ∈ cases, x.1.Fits) :
    Takes switch (cond.tokens ++ .comma :: (labelTokens default ++ .leftBracket ::
      (caseTokens cases ++ .rightBracket :: us))) (.switch cond default cases) us := by
  unfold switch
  rw [takes_bind (takes_typedTerm hcond), expect_bind, takes_bind (takes_label default),
    expect_bind]
  refine (takes_bind (?_ : Takes _ _ cases us)).mpr ?_
  · apply Loops.takes
    refine (fun hall : ∀ d, Loops ?step d (caseTokens cases ++ .rightBracket :: us) (d ++ cases) us
      => hall []) ?_
    induction cases with
    | nil =>
      intro d
      apply Loops.done
      simp [caseTokens]
    | cons x cases ih =>
      intro d
      have htail := ih (fun y hy => hcases y (List.mem_cons_of_mem x hy)) (d ++ [x])
      rw [List.append_assoc] at htail
      simp only [caseTokens, List.flatMap_cons, List.append_assoc, List.cons_append] at htail ⊢
      refine .again ?_ ?_ htail
      · rw [accept_ne (head?_typedTerm_ne rfl)]
        simp only [Bool.false_eq_true, if_false]
        rw [takes_bind (takes_typedTerm (hcases x List.mem_cons_self)), expect_bind,
          takes_bind (takes_label x.2)]
        simp
      · simp only [List.length_cons, List.length_append]
        omega
  · simp

/-! ## 5. Calls -/

theorem head?_type_word {t : Ty} {word : String}
    (h : (t.tokens ++ us).head? = some (.keyword word)) : isTypeWord word = true := by
  by_contra hword
  rw [Bool.not_eq_true] at hword
  have hstart : startsType (.keyword word) = false := hword
  exact head?_type_ne hstart h

theorem takes_callResult {t : Ty} (hfits : t.Fits) (hend : EndsType us) :
    Takes callResult (t.tokens ++ us) t.callResult us := by
  unfold callResult
  refine (takes_bind (?_ : Takes _ _ () (t.tokens ++ us))).mpr ?_
  · apply Loops.takes
    apply Loops.done
    rw [peek_bind]
    cases hhead : (t.tokens ++ us).head? with
    | none => simp
    | some x =>
      cases x with
      | keyword word => simp [head?_type_word hhead]
      | _ => simp
  · rw [takes_bind (takes_type hfits hend)]
    cases t <;> simp [Ty.callResult]

theorem takes_callArguments {args : List TypedTerm} (hargs : ∀ t ∈ args, t.Fits)
    (hend : ∀ n, us.head? ≠ some (.groupId n)) :
    Takes callArguments (.leftParen :: (commaTokens (args.map TypedTerm.tokens) ++
      .rightParen :: us)) args us := by
  unfold callArguments
  rw [expect_bind]
  cases args with
  | nil => simp [commaTokens]
  | cons t ts =>
    have hlist : Takes (commaSeparated typedTerm)
        (commaTokens ((t :: ts).map TypedTerm.tokens) ++ .rightParen :: us) (t :: ts)
        (.rightParen :: us) := by
      apply takes_commaSeparated TypedTerm.tokens (List.cons_ne_nil t ts) (by simp)
      intro x hx vs _
      exact takes_typedTerm (hargs x hx)
    have hne : (commaTokens ((t :: ts).map TypedTerm.tokens) ++ .rightParen :: us).head? ≠
        some .rightParen := by
      rw [List.map_cons, commaTokens_eq, List.append_assoc]
      exact head?_typedTerm_ne rfl
    rw [accept_ne hne]
    simp only [Bool.false_eq_true, if_false]
    rw [takes_bind hlist, expect_bind]
    refine (takes_bind (?_ : Takes _ _ () us)).mpr (by simp)
    apply Loops.takes
    apply Loops.done
    rw [peek_bind]
    cases hhead : us.head? with
    | none => simp
    | some x =>
      cases x with
      | groupId n => exact absurd hhead (hend n)
      | _ => simp

section

variable {written : Ty} {callee : Term} {args : List TypedTerm}

theorem takes_call (marker : TailMarker) (hty : written.Fits) (hcallee : callee.Fits)
    (hargs : ∀ t ∈ args, t.Fits) (hend : ∀ n, us.head? ≠ some (.groupId n)) :
    Takes (call marker) (callTokens written callee args ++ us)
      (.call marker written.callResult callee args) us := by
  simp only [call, callTokens, TypedTerm.tokensAll_eq_map, List.append_assoc, List.cons_append,
    List.nil_append]
  rw [takes_bind (takes_callResult hty (endsType_term callee _)), takes_bind (takes_term hcallee),
    takes_bind (takes_callArguments hargs hend)]
  simp

theorem takes_invoke (normal unwind : Symbol) (hty : written.Fits) (hcallee : callee.Fits)
    (hargs : ∀ t ∈ args, t.Fits) :
    Takes invoke (callTokens written callee args ++
      .keyword "to" :: (labelTokens normal ++ .keyword "unwind" :: (labelTokens unwind ++ us)))
      (.invoke written.callResult callee args normal unwind) us := by
  simp only [invoke, callTokens, TypedTerm.tokensAll_eq_map, List.append_assoc, List.cons_append,
    List.nil_append]
  rw [takes_bind (takes_callResult hty (endsType_term callee _)), takes_bind (takes_term hcallee),
    takes_bind (takes_callArguments hargs (by simp)), expectWord_bind,
    takes_bind (takes_label normal), expectWord_bind, takes_bind (takes_label unwind)]
  simp

end

/-! ## 6. Lists of operands -/

theorem isTrailing_typed {t : TypedTerm} : isTrailing (.comma :: (t.tokens ++ us)) = false := by
  obtain ⟨ty, term⟩ := t
  obtain ⟨x, xs, hx, hs⟩ := tokens_starts ty
  simp only [isTrailing, TypedTerm.tokens, hx, List.cons_append, List.getElem?_cons_succ,
    List.getElem?_cons_zero]
  cases x with
  | keyword word =>
    simp only [Token.isKeyword]
    by_contra hword
    simp only [Bool.not_eq_false, beq_iff_eq] at hword
    rw [hword] at hs
    exact absurd hs (by decide)
  | metadataName name => cases hs
  | _ => rfl

theorem takes_gepIndices {ts : List TypedTerm} (hts : ∀ t ∈ ts, t.Fits)
    (hend : us.head? ≠ some .comma) :
    Takes gepIndices (trailTokens (ts.map TypedTerm.tokens) ++ us) ts us := by
  unfold gepIndices
  refine Loops.takes (loops_trail (fun d => ?_) (fun t ht d vs => ?_) [])
  · rw [at?_ne hend, takes_bind (takes_atTrailing? us)]
    simp
  · simp [takes_bind (takes_atTrailing? _), isTrailing_typed,
      takes_bind (takes_typedTerm (hts t ht)), -bind_pure_comp]

theorem takes_incoming {ps : List (Term × Symbol)} (hps : ∀ x ∈ ps, x.1.Fits) (hne : ps ≠ [])
    (hend : us.head? ≠ some .comma) :
    Takes incoming (commaTokens (ps.map incomingTokens) ++ us) ps us := by
  unfold incoming
  apply Loops.takes
  refine (fun hall : ∀ d, Loops ?step d (commaTokens (ps.map incomingTokens) ++ us) (d ++ ps) us =>
    hall []) ?_
  induction ps with
  | nil => exact absurd rfl hne
  | cons x ps ih =>
    intro d
    have hx := hps x List.mem_cons_self
    cases ps with
    | nil =>
      apply Loops.done
      simp only [List.map_cons, List.map_nil, commaTokens, incomingTokens, List.cons_append,
        List.append_assoc, List.nil_append]
      rw [expect_bind, takes_bind (takes_term hx), expect_bind, takes_bind (takes_localSymbol x.2),
        expect_bind, at?_ne hend, peekSecond_bind]
      simp
    | cons y ps =>
      have htail := ih (fun z hz => hps z (List.mem_cons_of_mem x hz)) (List.cons_ne_nil y ps)
        (d ++ [x])
      rw [List.append_assoc] at htail
      have hhead : ∃ zs, commaTokens ((y :: ps).map incomingTokens) ++ us = .leftBracket :: zs := by
        rw [List.map_cons, commaTokens_eq, List.append_assoc]
        exact ⟨_, rfl⟩
      obtain ⟨zs, hzs⟩ := hhead
      rw [List.map_cons, List.map_cons, commaTokens_cons, ← List.map_cons, List.append_assoc,
        List.cons_append, hzs]
      rw [hzs] at htail
      refine .again ?_ ?_ htail
      · simp only [incomingTokens, List.cons_append, List.append_assoc, List.nil_append]
        rw [expect_bind, takes_bind (takes_term hx), expect_bind,
          takes_bind (takes_localSymbol x.2), expect_bind, at?_cons, peekSecond_bind]
        simp [-bind_pure_comp]
      · simp only [List.length_cons, List.length_append]
        omega

theorem takes_skipOperatorFlags (t : Ty) :
    Takes skipOperatorFlags (t.tokens ++ us) () (t.tokens ++ us) := by
  unfold skipOperatorFlags
  apply Loops.takes
  apply Loops.done
  rw [peek_bind]
  cases hhead : (t.tokens ++ us).head? with
  | none => simp
  | some x =>
    cases x with
    | keyword word =>
      have hword := head?_type_word hhead
      have hflag : isOperatorFlag word = false := by
        by_contra hf
        simp only [isOperatorFlag, Bool.not_eq_false, List.contains_iff_mem, List.mem_cons,
          List.not_mem_nil, or_false] at hf
        rcases hf with rfl | rfl | rfl | rfl | rfl | rfl | rfl | rfl | rfl | rfl | rfl | rfl <;>
          exact absurd hword (by decide)
      simp [hflag]
    | _ => simp

/-! ## 7. Operations -/

/-- The operation can be read back, with the type a call writes. -/
def Operation.Reads (written : Ty) : Operation → Prop
  | .ret none | .br _ | .unreachable => True
  | .ret (some v) => v.Fits ∧ v.ty.lead ≠ .void
  | .condBr cond _ _ => cond.Fits ∧ cond.ty.lead ≠ .label
  | .switch cond _ cases => cond.Fits ∧ ∀ x ∈ cases, x.1.Fits
  | .call _ result callee args | .invoke result callee args _ _ =>
    written.Fits ∧ written.callResult = result ∧ callee.Fits ∧ ∀ t ∈ args, t.Fits
  | .binary _ ty lhs rhs | .icmp _ ty lhs rhs => ty.Fits ∧ lhs.Fits ∧ rhs.Fits
  | .cast _ value target => value.Fits ∧ target.Fits
  | .load ty ptr align => ty.Fits ∧ ptr.Fits ∧ ∀ n ∈ align, n < span 32
  | .store value ptr align => value.Fits ∧ ptr.Fits ∧ ∀ n ∈ align, n < span 32
  | .alloca ty align => ty.Fits ∧ ∀ n ∈ align, n < span 32
  | .gep _ source base indices => source.Fits ∧ base.Fits ∧ ∀ t ∈ indices, t.Fits
  | .select cond ifTrue ifFalse => cond.Fits ∧ ifTrue.Fits ∧ ifFalse.Fits
  | .phi ty incoming => ty.Fits ∧ incoming ≠ [] ∧ ∀ x ∈ incoming, x.1.Fits

theorem operation_binary (op : BinaryOp) (line : Nat) :
    operation op.name line = (do
      skipOperatorFlags
      let ty ← type
      let lhs ← term
      expect .comma
      return .binary op ty lhs (← term)) := by
  cases op <;> rfl

theorem operation_cast (op : CastOp) (line : Nat) :
    operation op.name line = (do
      let value ← typedTerm
      expectWord "to"
      return .cast op value (← type)) := by
  cases op <;> rfl

theorem takes_untrailed {word : String} {line : Nat} {op : Operation} {ts : List Token}
    (hend : EndsInstr us) (h : Takes (operation word line) ts op us) :
    Takes (operation word line >>= trailing) ts op us := by
  rw [takes_bind h]
  exact takes_trailing_done (hend.ne rfl)

theorem acceptWord_type {β : Type} {b : β} {f : Bool → Reader β} {t : Ty} {vs : List Token}
    (word : String) (h : isTypeWord word = false) :
    Takes (acceptWord word >>= f) (t.tokens ++ us) b vs ↔ Takes (f false) (t.tokens ++ us) b vs :=
  accept_type (.keyword word) h

/-- An operation is read from its tokens. -/
theorem takes_operation {op : Operation} {written : Ty} (h : op.Reads written)
    (hend : EndsInstr us) : ∃ word body, op.tokens written = .keyword word :: body ∧
      ∀ line, Takes (operation word line >>= trailing) (body ++ us) op us := by
  have hgroup : ∀ n, us.head? ≠ some (.groupId n) := fun n => hend.ne rfl
  have hcomma : us.head? ≠ some .comma := hend.ne rfl
  cases op with
  | ret value =>
    cases value with
    | none =>
      refine ⟨"ret", _, rfl, fun line => takes_untrailed hend ?_⟩
      simp [operation, acceptWord]
    | some v =>
      refine ⟨"ret", v.tokens, rfl, fun line => takes_untrailed hend ?_⟩
      simp only [operation, acceptWord]
      rw [accept_ne (head?_typed_ne_void h.2)]
      simp only [Bool.false_eq_true, if_false]
      rw [takes_bind (takes_typedTerm h.1)]
      simp
  | br dest =>
    refine ⟨"br", labelTokens dest, rfl, fun line => takes_untrailed hend ?_⟩
    exact takes_branch_label dest
  | condBr cond ifTrue ifFalse =>
    refine ⟨"br", _, rfl, fun line => takes_untrailed hend ?_⟩
    simpa [operation, commaTokens] using @takes_branch_cond us cond ifTrue ifFalse h.1 h.2
  | switch cond default cases =>
    refine ⟨"switch", _, rfl, fun line => takes_untrailed hend ?_⟩
    simpa [operation] using @takes_switch us cond default cases h.1 h.2
  | unreachable =>
    refine ⟨"unreachable", [], rfl, fun line => takes_untrailed hend ?_⟩
    simp [operation]
  | call marker ret callee args =>
    obtain ⟨hty, rfl, hcallee, hargs⟩ := h
    have hcall := takes_call marker hty hcallee hargs hgroup
    cases marker with
    | none => exact ⟨"call", _, rfl, fun line => takes_untrailed hend hcall⟩
    | tail =>
      refine ⟨"tail", _, rfl, fun line => takes_untrailed hend ?_⟩
      simpa [operation, markedCall] using hcall
    | mustTail =>
      refine ⟨"musttail", _, rfl, fun line => takes_untrailed hend ?_⟩
      simpa [operation, markedCall] using hcall
    | noTail =>
      refine ⟨"notail", _, rfl, fun line => takes_untrailed hend ?_⟩
      simpa [operation, markedCall] using hcall
  | invoke ret callee args normal unwind =>
    obtain ⟨hty, rfl, hcallee, hargs⟩ := h
    refine ⟨"invoke", _, rfl, fun line => takes_untrailed hend ?_⟩
    simpa [operation] using @takes_invoke us written callee args normal unwind hty hcallee hargs
  | binary op ty lhs rhs =>
    refine ⟨op.name, _, rfl, fun line => takes_untrailed hend ?_⟩
    simp only [operation_binary, List.append_assoc, List.cons_append]
    rw [takes_bind (takes_skipOperatorFlags ty),
      takes_bind (takes_type h.1 (endsType_term lhs _)), takes_bind (takes_term h.2.1), expect_bind,
      takes_bind (takes_term h.2.2)]
    simp
  | icmp pred ty lhs rhs =>
    refine ⟨"icmp", _, rfl, fun line => takes_untrailed hend ?_⟩
    have hpred : Takes comparison (.keyword pred.name :: (ty.tokens ++ (lhs.tokens ++
        .comma :: (rhs.tokens ++ us)))) pred
        (ty.tokens ++ (lhs.tokens ++ .comma :: (rhs.tokens ++ us))) := by
      simp [comparison]
    simp only [operation, List.append_assoc, List.cons_append]
    rw [takes_bind hpred, takes_bind (takes_type h.1 (endsType_term lhs _)),
      takes_bind (takes_term h.2.1), expect_bind, takes_bind (takes_term h.2.2)]
    simp
  | cast op value target =>
    refine ⟨op.name, _, rfl, fun line => takes_untrailed hend ?_⟩
    simp only [operation_cast, List.append_assoc, List.cons_append]
    rw [takes_bind (takes_typedTerm h.1), expectWord_bind,
      takes_bind (takes_type h.2 hend.endsType)]
    simp
  | load ty ptr align =>
    refine ⟨"load", _, rfl, fun line => ?_⟩
    have hop : Takes (operation "load" line)
        (ty.tokens ++ .comma :: (ptr.tokens ++ (alignTokens align ++ us))) (.load ty ptr none)
        (alignTokens align ++ us) := by
      simp only [operation]
      have hends : EndsType (.comma :: (ptr.tokens ++ (alignTokens align ++ us))) :=
        endsType_cons rfl
      rw [acceptWord_type "volatile" rfl, takes_bind (takes_type h.1 hends), expect_bind,
        takes_bind (takes_typedTerm h.2.1)]
      simp
    simp only [List.append_assoc, List.cons_append]
    rw [takes_bind hop]
    exact takes_of_eq (takes_trailing_align hend h.2.2) (by cases align <;> rfl) rfl
  | store value ptr align =>
    refine ⟨"store", _, rfl, fun line => ?_⟩
    have hop : Takes (operation "store" line)
        (value.tokens ++ .comma :: (ptr.tokens ++ (alignTokens align ++ us)))
        (.store value ptr none) (alignTokens align ++ us) := by
      simp only [operation, acceptWord]
      rw [accept_ne (head?_typedTerm_ne rfl), takes_bind (takes_typedTerm h.1), expect_bind,
        takes_bind (takes_typedTerm h.2.1)]
      simp
    simp only [List.append_assoc, List.cons_append]
    rw [takes_bind hop]
    exact takes_of_eq (takes_trailing_align hend h.2.2) (by cases align <;> rfl) rfl
  | alloca ty align =>
    refine ⟨"alloca", _, rfl, fun line => ?_⟩
    have hends : EndsType (alignTokens align ++ us) := by
      cases align with
      | none => exact hend.endsType
      | some n => exact endsType_cons rfl
    have hop : Takes (operation "alloca" line) (ty.tokens ++ (alignTokens align ++ us))
        (.alloca ty none) (alignTokens align ++ us) := by
      simp only [operation]
      rw [takes_bind (takes_type h.1 hends)]
      simp
    simp only [List.append_assoc]
    rw [takes_bind hop]
    exact takes_of_eq (takes_trailing_align hend h.2) (by cases align <;> rfl) rfl
  | gep inbounds source base indices =>
    refine ⟨"getelementptr", _, rfl, fun line => takes_untrailed hend ?_⟩
    have hrest : Takes (do
        let source ← type
        expect .comma
        let base ← typedTerm
        return .gep inbounds source base (← gepIndices))
        (source.tokens ++ .comma :: (base.tokens ++
          (trailTokens (indices.map TypedTerm.tokens) ++ us)))
        (Operation.gep inbounds source base indices) us := by
      have hends : EndsType (.comma :: (base.tokens ++
          (trailTokens (indices.map TypedTerm.tokens) ++ us))) := endsType_cons rfl
      rw [takes_bind (takes_type h.1 hends), expect_bind, takes_bind (takes_typedTerm h.2.1),
        takes_bind (takes_gepIndices h.2.2 hcomma)]
      simp
    simp only [operation, commaTokens_eq, trailTokens_cons, TypedTerm.tokensAll_eq_map,
      List.append_assoc, List.cons_append, acceptWord]
    cases inbounds with
    | false =>
      simp only [Bool.false_eq_true, if_false, List.nil_append]
      rw [accept_type (.keyword "inbounds") rfl]
      exact hrest
    | true =>
      simp only [if_true, List.cons_append, List.nil_append]
      rw [accept_self]
      exact hrest
  | select cond ifTrue ifFalse =>
    refine ⟨"select", _, rfl, fun line => takes_untrailed hend ?_⟩
    simp only [operation, commaTokens, List.append_assoc, List.cons_append]
    rw [takes_bind (takes_typedTerm h.1), expect_bind, takes_bind (takes_typedTerm h.2.1),
      expect_bind, takes_bind (takes_typedTerm h.2.2)]
    simp
  | phi ty incoming =>
    refine ⟨"phi", _, rfl, fun line => takes_untrailed hend ?_⟩
    have hends : EndsType (commaTokens (incoming.map incomingTokens) ++ us) := by
      cases incoming with
      | nil => exact absurd rfl h.2.1
      | cons x xs =>
        rw [List.map_cons, commaTokens_eq, List.append_assoc]
        exact endsType_cons rfl
    simp only [operation, List.append_assoc]
    rw [takes_bind (takes_type h.1 hends), takes_bind (takes_incoming h.2.2 h.2.1 hcomma)]
    simp

/-! ## 8. What instructions are written as -/

namespace Spelling

variable {sp : Spelling}

mutual

theorem fits_term : (ty : Ty) → (v : Value) → sp.Prints ty v → (sp.term v).Fits
  | _, .instr _, _ | _, .arg _ _, _ | _, .block _, _ | _, .func _, _ | _, .global _, _
  | _, .float _ _, _ | _, .null _, _ | _, .undef _, _ | _, .zero _, _ | _, .bytes _, _ => by
    simp only [term, Term.Fits]
  | _, .int bits v, _ => by
    simp only [term]
    split <;> simp only [Term.Fits]
  | _, .array _ vs, h => by
    simp only [Prints] at h
    simpa only [term, Term.Fits] using fits_terms vs h.2
  | _, .struct _ vs, h => by
    simp only [Prints] at h
    simpa only [term, Term.Fits] using fits_terms vs h.2
  | _, .cast _ v _, h => by
    simp only [Prints] at h
    simp only [term, Term.Fits, TypedTerm.Fits]
    exact ⟨⟨h.1.1, fits_term _ v h.1.2⟩, h.2⟩
  | _, .gep _ _ base indices _, h => by
    simp only [Prints] at h
    simp only [term, Term.Fits, TypedTerm.Fits]
    exact ⟨h.1, ⟨h.2.1.1, fits_term _ base h.2.1.2⟩, fits_terms indices h.2.2.1⟩

theorem fits_terms : (vs : List Value) → sp.AllPrint vs → TypedTerm.AllFit (sp.terms vs)
  | [], _ => by simp only [terms, TypedTerm.AllFit]
  | v :: vs, h => by
    simp only [AllPrint] at h
    simp only [terms, TypedTerm.AllFit, TypedTerm.Fits]
    exact ⟨⟨h.1.1, fits_term _ v h.1.2⟩, fits_terms vs h.2⟩

end

theorem fits_typed {v : Value} (h : sp.PrintsTyped v) : (sp.typed v).Fits := by
  simp only [typed, TypedTerm.Fits]
  exact ⟨h.1, fits_term _ v h.2⟩

theorem fits_all {vs : List Value} (h : ∀ v ∈ vs, sp.PrintsTyped v) :
    ∀ t ∈ sp.terms vs, t.Fits := by
  rw [← TypedTerm.allFit_iff]
  exact fits_terms vs (allPrint_iff.mpr h)

/-- What an instruction is written as can be read. -/
theorem Renders.reads {i : Instr} {op : Operation} (h : sp.Renders i op) :
    op.Reads (sp.calleeTy i) := by
  cases h with
  | retVoid | br | unreachable => exact trivial
  | ret hkind hty hops hv hlead => exact ⟨fits_typed hv, hlead⟩
  | condBr hkind hty hops hcond hlead => exact ⟨fits_typed hcond, hlead⟩
  | switch hkind hty hops hcond hdefault hcases =>
    refine ⟨fits_typed hcond, ?_⟩
    intro x hx
    obtain ⟨y, hy, rfl⟩ := List.mem_map.mp hx
    exact fits_typed (hcases y hy).1
  | call hkind hops hcall =>
    obtain ⟨hcallee, -⟩ := call_parts hkind hops
    simp only [Operation.Reads, calleeTy, hcallee, Option.getD_some]
    exact ⟨hcall.fits, hcall.back, fits_term _ _ hcall.head, fits_all hcall.args⟩
  | invoke hkind hops hcall =>
    obtain ⟨hcallee, -, -⟩ := invoke_parts hkind hops
    simp only [Operation.Reads, calleeTy, hcallee, Option.getD_some]
    exact ⟨hcall.fits, hcall.back, fits_term _ _ hcall.head, fits_all hcall.args⟩
  | binary hkind hops hfits hlhs hrhs => exact ⟨hfits, fits_term _ _ hlhs, fits_term _ _ hrhs⟩
  | icmp hkind hty hops hlhs hrhs => exact ⟨hlhs.1, fits_term _ _ hlhs.2, fits_term _ _ hrhs⟩
  | cast hkind hops hv hfits => exact ⟨fits_typed hv, hfits⟩
  | load hkind hops hfits hptr halign => exact ⟨hfits, fits_typed hptr, halign⟩
  | store hkind hty hops hvalue hptr halign =>
    exact ⟨fits_typed hvalue, fits_typed hptr, halign⟩
  | alloca hkind hty hops hfits halign => exact ⟨hfits, halign⟩
  | gep hkind hty hops hfits hbase hindices =>
    exact ⟨hfits, fits_typed hbase, fits_all hindices⟩
  | select hkind hty hops hcond htrue hfalse =>
    exact ⟨fits_typed hcond, fits_typed htrue, fits_typed hfalse⟩
  | phi hkind hops hne hfits hpairs =>
    refine ⟨hfits, by simpa using hne, ?_⟩
    intro x hx
    obtain ⟨y, hy, rfl⟩ := List.mem_map.mp hx
    exact fits_term _ _ (hpairs y hy).1

end Spelling

end QirProfile.Assembly
