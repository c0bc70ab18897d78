import QirProfile.Assembly.Resolve
import QirProfile.Proofs.Assembly.Spelling

/-!
# Instructions as tokens

`Operation.tokens` writes an operation as tokens, and `Spelling.Renders sp i op` says that the
instruction `i` is written as the operation `op`: which operands it has and in which order, and that
all of it can be read back. One constructor stands for each form of an instruction.
-/

namespace QirProfile

open Assembly Text

variable {b : BlockId} {text : String} {toks : List Token} {vs args : List Value} {callee : Value}
  {cases : List (Value × BlockId)} {op : Operation} {pr₂ : Printer}

/-! ## 1. Operations as tokens -/

namespace Ty

/-- What a type starts with: stars and parameters stand behind. -/
def lead : Ty → Ty
  | ptr t => t.lead
  | func r _ _ => r.lead
  | t => t

/-- The result of a call whose written type is this one. -/
def callResult : Ty → Ty
  | func r _ _ => r
  | t => t

end Ty

namespace Assembly

/-- The tokens of an alignment behind a comma. -/
def alignTokens : Option Nat → List Token
  | none => []
  | some n => [.comma, .keyword "align", .integer n]

/-- The tokens of a branch target. -/
def labelTokens (s : Symbol) : List Token :=
  [.keyword "label", s.localToken]

/-- The tokens of a call behind its word. -/
def callTokens (written : Ty) (callee : Term) (args : List TypedTerm) : List Token :=
  written.tokens ++ (callee.tokens ++
    .leftParen :: (commaTokens (TypedTerm.tokensAll args) ++ [.rightParen]))

/-- The tokens of the cases of a switch. -/
def caseTokens (cases : List (TypedTerm × Symbol)) : List Token :=
  cases.flatMap fun x => x.1.tokens ++ .comma :: labelTokens x.2

/-- The tokens of an incoming value of a phi. -/
def incomingTokens (x : Term × Symbol) : List Token :=
  .leftBracket :: (x.1.tokens ++ [.comma, x.2.localToken, .rightBracket])

/-- The tokens of a call's marker. -/
def markerTokens : TailMarker → List Token
  | .none => []
  | .tail => [.keyword "tail"]
  | .mustTail => [.keyword "musttail"]
  | .noTail => [.keyword "notail"]

/-- The tokens of an operation. A call writes the type `written`, which may be more than its
    result type. -/
def Operation.tokens (written : Ty) : Operation → List Token
  | .ret none => [.keyword "ret", .keyword "void"]
  | .ret (some v) => .keyword "ret" :: v.tokens
  | .br dest => .keyword "br" :: labelTokens dest
  | .condBr cond ifTrue ifFalse =>
    .keyword "br" :: commaTokens [cond.tokens, labelTokens ifTrue, labelTokens ifFalse]
  | .switch cond default cases =>
    .keyword "switch" :: (cond.tokens ++ .comma :: (labelTokens default ++
      .leftBracket :: (caseTokens cases ++ [.rightBracket])))
  | .unreachable => [.keyword "unreachable"]
  | .call marker _ callee args =>
    markerTokens marker ++ .keyword "call" :: callTokens written callee args
  | .invoke _ callee args normal unwind =>
    .keyword "invoke" :: (callTokens written callee args ++
      .keyword "to" :: (labelTokens normal ++ .keyword "unwind" :: labelTokens unwind))
  | .binary op ty lhs rhs =>
    .keyword op.name :: (ty.tokens ++ (lhs.tokens ++ .comma :: rhs.tokens))
  | .icmp pred ty lhs rhs =>
    .keyword "icmp" :: .keyword pred.name :: (ty.tokens ++ (lhs.tokens ++ .comma :: rhs.tokens))
  | .cast op value target => .keyword op.name :: (value.tokens ++ .keyword "to" :: target.tokens)
  | .load ty ptr align =>
    .keyword "load" :: (ty.tokens ++ .comma :: (ptr.tokens ++ alignTokens align))
  | .store value ptr align =>
    .keyword "store" :: (value.tokens ++ .comma :: (ptr.tokens ++ alignTokens align))
  | .alloca ty align => .keyword "alloca" :: (ty.tokens ++ alignTokens align)
  | .gep inbounds source base indices =>
    .keyword "getelementptr" :: ((if inbounds then [.keyword "inbounds"] else []) ++
      commaTokens (source.tokens :: base.tokens :: TypedTerm.tokensAll indices))
  | .select cond ifTrue ifFalse =>
    .keyword "select" :: commaTokens [cond.tokens, ifTrue.tokens, ifFalse.tokens]
  | .phi ty incoming =>
    .keyword "phi" :: (ty.tokens ++ commaTokens (incoming.map incomingTokens))

/-! ## 2. What an instruction is written as -/

namespace Spelling

/-- The type that a call of this result type writes before its callee. -/
def writtenTy (sp : Spelling) (callee : Value) (result : Ty) : Ty :=
  match callee.toFunc?.map fun f => (sp.program.func f).signature with
  | some sig => if sig.varArg then sig.ty else result
  | none => result

/-- A case of a switch as it is written. -/
def switchCase (sp : Spelling) (x : Value × BlockId) : TypedTerm × Symbol :=
  (sp.typed x.1, sp.symbolOf (.block x.2))

/-- An incoming value of a phi as it is written. -/
def incoming (sp : Spelling) (x : Value × BlockId) : Term × Symbol :=
  (sp.term x.1, sp.symbolOf (.block x.2))

/-- A call of this callee with these arguments can be read back. -/
structure CallPrints (sp : Spelling) (result : Ty) (callee : Value) (args : List Value) :
    Prop where
  head : sp.Prints .void callee
  args : ∀ v ∈ args, sp.PrintsTyped v
  fits : (sp.writtenTy callee result).Fits
  back : (sp.writtenTy callee result).callResult = result

/-- **The instruction is written as the operation, and can be read back.** -/
inductive Renders (sp : Spelling) (i : Instr) : Operation → Prop
  | retVoid (hkind : i.kind = .ret) (hty : i.ty = .void) (hops : i.operands = []) :
    Renders sp i (.ret none)
  | ret {v : Value} (hkind : i.kind = .ret) (hty : i.ty = .void) (hops : i.operands = [v])
    (hv : sp.PrintsTyped v) (hlead : (sp.program.valueTy v).lead ≠ .void) :
    Renders sp i (.ret (some (sp.typed v)))
  | br {dest : BlockId} (hkind : i.kind = .br) (hty : i.ty = .void)
    (hops : i.operands = [.block dest]) (hdest : sp.HasSymbol (.block dest)) :
    Renders sp i (.br (sp.symbolOf (.block dest)))
  | condBr {cond : Value} {ifFalse ifTrue : BlockId} (hkind : i.kind = .br) (hty : i.ty = .void)
    (hops : i.operands = [cond, .block ifFalse, .block ifTrue]) (hcond : sp.PrintsTyped cond)
    (hlead : (sp.program.valueTy cond).lead ≠ .label)
    (hfalse : sp.HasSymbol (.block ifFalse)) (htrue : sp.HasSymbol (.block ifTrue)) :
    Renders sp i (.condBr (sp.typed cond) (sp.symbolOf (.block ifTrue))
      (sp.symbolOf (.block ifFalse)))
  | switch {cond : Value} {default : BlockId} {cases : List (Value × BlockId)}
    (hkind : i.kind = .switch) (hty : i.ty = .void)
    (hops : i.operands = cond :: .block default :: cases.flatMap fun x => [x.1, .block x.2])
    (hcond : sp.PrintsTyped cond) (hdefault : sp.HasSymbol (.block default))
    (hcases : ∀ x ∈ cases, sp.PrintsTyped x.1 ∧ sp.HasSymbol (.block x.2)) :
    Renders sp i (.switch (sp.typed cond) (sp.symbolOf (.block default))
      (cases.map sp.switchCase))
  | unreachable (hkind : i.kind = .unreachable) (hty : i.ty = .void) (hops : i.operands = []) :
    Renders sp i .unreachable
  | call {marker : TailMarker} {callee : Value} {args : List Value} (hkind : i.kind = .call marker)
    (hops : i.operands = args ++ [callee]) (hcall : sp.CallPrints i.ty callee args) :
    Renders sp i (.call marker i.ty (sp.term callee) (sp.terms args))
  | invoke {callee : Value} {args : List Value} {normal unwind : BlockId} (hkind : i.kind = .invoke)
    (hops : i.operands = args ++ [.block normal, .block unwind, callee])
    (hcall : sp.CallPrints i.ty callee args) (hnormal : sp.HasSymbol (.block normal))
    (hunwind : sp.HasSymbol (.block unwind)) :
    Renders sp i (.invoke i.ty (sp.term callee) (sp.terms args) (sp.symbolOf (.block normal))
      (sp.symbolOf (.block unwind)))
  | binary {op : BinaryOp} {lhs rhs : Value} (hkind : i.kind = .binary op)
    (hops : i.operands = [lhs, rhs]) (hfits : i.ty.Fits) (hlhs : sp.Prints i.ty lhs)
    (hrhs : sp.Prints i.ty rhs) :
    Renders sp i (.binary op i.ty (sp.term lhs) (sp.term rhs))
  | icmp {pred : Predicate} {lhs rhs : Value} (hkind : i.kind = .icmp pred) (hty : i.ty = .bool)
    (hops : i.operands = [lhs, rhs]) (hlhs : sp.PrintsTyped lhs)
    (hrhs : sp.Prints (sp.program.valueTy lhs) rhs) :
    Renders sp i (.icmp pred (sp.program.valueTy lhs) (sp.term lhs) (sp.term rhs))
  | cast {op : CastOp} {v : Value} (hkind : i.kind = .cast op) (hops : i.operands = [v])
    (hv : sp.PrintsTyped v) (hfits : i.ty.Fits) :
    Renders sp i (.cast op (sp.typed v) i.ty)
  | load {align : Option Nat} {ptr : Value} (hkind : i.kind = .load align)
    (hops : i.operands = [ptr]) (hfits : i.ty.Fits) (hptr : sp.PrintsTyped ptr)
    (halign : ∀ n ∈ align, n < span 32) :
    Renders sp i (.load i.ty (sp.typed ptr) align)
  | store {align : Option Nat} {value ptr : Value} (hkind : i.kind = .store align)
    (hty : i.ty = .void) (hops : i.operands = [value, ptr]) (hvalue : sp.PrintsTyped value)
    (hptr : sp.PrintsTyped ptr) (halign : ∀ n ∈ align, n < span 32) :
    Renders sp i (.store (sp.typed value) (sp.typed ptr) align)
  | alloca {allocated : Ty} {align : Option Nat} (hkind : i.kind = .alloca allocated align)
    (hty : i.ty = .ptr allocated) (hops : i.operands = []) (hfits : allocated.Fits)
    (halign : ∀ n ∈ align, n < span 32) :
    Renders sp i (.alloca allocated align)
  | gep {source : Ty} {inbounds : Bool} {base : Value} {indices : List Value}
    (hkind : i.kind = .gep source inbounds)
    (hty : i.ty = sp.program.gepTy source ((sp.terms indices).map staticIndex))
    (hops : i.operands = base :: indices) (hfits : source.Fits) (hbase : sp.PrintsTyped base)
    (hindices : ∀ v ∈ indices, sp.PrintsTyped v) :
    Renders sp i (.gep inbounds source (sp.typed base) (sp.terms indices))
  | select {cond ifTrue ifFalse : Value} (hkind : i.kind = .select)
    (hty : i.ty = sp.program.valueTy ifTrue) (hops : i.operands = [cond, ifTrue, ifFalse])
    (hcond : sp.PrintsTyped cond) (htrue : sp.PrintsTyped ifTrue)
    (hfalse : sp.PrintsTyped ifFalse) :
    Renders sp i (.select (sp.typed cond) (sp.typed ifTrue) (sp.typed ifFalse))
  | phi {pairs : List (Value × BlockId)} (hkind : i.kind = .phi (pairs.map (·.2)))
    (hops : i.operands = pairs.map (·.1)) (hne : pairs ≠ []) (hfits : i.ty.Fits)
    (hpairs : ∀ x ∈ pairs, sp.Prints i.ty x.1 ∧ sp.HasSymbol (.block x.2)) :
    Renders sp i (.phi i.ty (pairs.map sp.incoming))

/-! ## 3. Texts of operands -/

variable {sp : Spelling} {pr : Printer} {i : Instr}

theorem spells_block (hsh : sp.Shows pr) (h : sp.HasSymbol (.block b)) :
    Spells (pr.block b) [(sp.symbolOf (.block b)).localToken] :=
  spells_slot h (hsh.block b)

theorem label_block (b : BlockId) : pr.label (.block b) = "label " ++ pr.block b := by
  rw [Printer.label, Printer.value.eq_def]

theorem spells_label (hsh : sp.Shows pr) (h : sp.HasSymbol (.block b)) :
    Spells (pr.label (.block b)) (labelTokens (sp.symbolOf (.block b))) := by
  rw [label_block]
  exact (spells_block hsh h).behind "label " [.keyword "label"] (by decide)

theorem spells_align {align : Option Nat}
    (halign : ∀ n ∈ align, n < span 32) (h : Spells text toks) :
    Spells (text ++ Printer.alignText align) (toks ++ alignTokens align) := by
  cases align with
  | none => simpa [Printer.alignText, alignTokens] using h
  | some n =>
    have hn : n < span 127 := Nat.lt_trans (halign n rfl) (by decide)
    have hnat : Spells (toString n) [.integer n] := fun _ _ hap hr => lexes_nat hn hap hr
    have := h.between ", align " [.comma, .keyword "align"] (by decide) (by decide) hnat
    simpa only [Printer.alignText, alignTokens, String.append_assoc, List.append_assoc,
      List.cons_append, List.nil_append] using this

theorem forall₂_typed (hsh : sp.Shows pr) (h : ∀ v ∈ vs, sp.PrintsTyped v) :
    List.Forall₂ Spells (vs.map pr.typed) (TypedTerm.tokensAll (sp.terms vs)) := by
  induction vs with
  | nil => simp [terms, TypedTerm.tokensAll]
  | cons v vs ih =>
    simp only [List.map_cons, terms, TypedTerm.tokensAll]
    exact .cons (spells_typed hsh (h v List.mem_cons_self))
      (ih fun w hw => h w (List.mem_cons_of_mem v hw))

/-! ## 4. Calls -/

theorem callSite_eq (hsh : sp.Shows pr)
    (hcallee : i.callee? = some callee) (hargs : i.arguments = args) :
    pr.callSite i = (sp.writtenTy callee i.ty).text ++ " " ++ pr.value callee ++ "(" ++
      Ty.commas (args.map pr.typed) ++ ")" := by
  have hvar : ∀ f, (pr.program.func f).varArg = (sp.program.func f).signature.varArg := by
    intro f
    rw [← hsh.signature f]
    rfl
  unfold Printer.callSite writtenTy Instr.calledFunction?
  rw [hcallee, hargs]
  cases hf : callee.toFunc? with
  | none => simp [hf]
  | some f => simp [hf, hvar, hsh.signature]

theorem spells_callSite (hsh : sp.Shows pr)
    (hcallee : i.callee? = some callee) (hargs : i.arguments = args)
    (h : sp.CallPrints i.ty callee args) :
    Spells (pr.callSite i)
      (callTokens (sp.writtenTy callee i.ty) (sp.term callee) (sp.terms args)) := by
  rw [callSite_eq hsh hcallee hargs]
  have hhead := spells_typed_of h.fits (spells_value hsh _ callee h.head)
  have := (hhead.between "(" [.leftParen] (by decide) (by decide)
    (spells_commas (forall₂_typed hsh h.args))).before ")" [.rightParen] (by decide) (by decide)
  simpa only [callTokens, List.append_assoc, List.cons_append, List.nil_append] using this

theorem call_parts {marker : TailMarker}
    (hkind : i.kind = .call marker) (hops : i.operands = args ++ [callee]) :
    i.callee? = some callee ∧ i.arguments = args := by
  constructor
  · simp [Instr.callee?, Instr.isCall, hkind, hops]
  · simp [Instr.arguments, hkind, hops]

theorem invoke_parts {normal unwind : BlockId}
    (hkind : i.kind = .invoke) (hops : i.operands = args ++ [.block normal, .block unwind, callee]) :
    i.callee? = some callee ∧ i.arguments = args ∧
      i.invokeDestinations? = some (normal, unwind) := by
  refine ⟨?_, ?_, ?_⟩
  · simp [Instr.callee?, Instr.isInvoke, hkind, hops]
  · simp [Instr.arguments, hkind, hops]
  · simp [Instr.invokeDestinations?, hkind, hops]

/-! ## 5. Texts of operations -/

/-- The type a call writes; other instructions have no use for it. -/
def calleeTy (sp : Spelling) (i : Instr) : Ty :=
  sp.writtenTy (i.callee?.getD (.undef .void)) i.ty

theorem spells_cases (hsh : sp.Shows pr)
    (h : ∀ x ∈ cases, sp.PrintsTyped x.1 ∧ sp.HasSymbol (.block x.2)) :
    Spells (pr.switchCases (cases.flatMap fun x => [x.1, .block x.2]) ++ "\n  ]")
      (caseTokens (cases.map sp.switchCase) ++ [.rightBracket]) ∧
    ∀ rest, Apart ((pr.switchCases (cases.flatMap fun x => [x.1, .block x.2]) ++
      "\n  ]").toList ++ rest) := by
  induction cases with
  | nil =>
    constructor
    · have := spells_empty.behind "\n  ]" [.rightBracket] (by decide)
      simpa [Printer.switchCases, caseTokens] using this
    · intro rest
      have : Apart ("\n  ]".toList ++ rest) := apart_literal "\n  ]" (by decide)
      simpa [Printer.switchCases] using this
  | cons x cases ih =>
    obtain ⟨htail, hapart⟩ := ih fun y hy => h y (List.mem_cons_of_mem x hy)
    obtain ⟨hvalue, hdest⟩ := h x List.mem_cons_self
    have hhead := ((spells_typed hsh hvalue).between ", " [.comma] (by decide) (by decide)
      (spells_label hsh hdest)).behind "\n    " [] (by decide)
    constructor
    · intro rest us hap hr
      have := hhead _ _ (hapart rest) (htail rest us hap hr)
      simpa [Printer.switchCases, caseTokens, switchCase] using this
    · intro rest
      simp only [List.flatMap_cons, List.cons_append, List.nil_append, Printer.switchCases,
        String.append_assoc, String.toList_append, List.append_assoc]
      exact apart_literal "\n    " (by decide)

theorem marker_lead (marker : TailMarker)
    (h : Spells text toks) : Spells (marker.lead ++ text) (markerTokens marker ++ toks) := by
  cases marker with
  | none => simpa [TailMarker.lead, markerTokens] using h
  | tail => exact h.behind "tail " [.keyword "tail"] (by decide)
  | mustTail => exact h.behind "musttail " [.keyword "musttail"] (by decide)
  | noTail => exact h.behind "notail " [.keyword "notail"] (by decide)

theorem binaryOp_isWord (op : BinaryOp) : isWord op.name.toList = true := by
  cases op <;> decide

theorem predicate_isWord (pred : Predicate) : isWord pred.name.toList = true := by
  cases pred <;> decide

theorem spells_incoming (hsh : sp.Shows pr) {ty : Ty} {pairs : List (Value × BlockId)}
    (h : ∀ x ∈ pairs, sp.Prints ty x.1 ∧ sp.HasSymbol (.block x.2)) :
    List.Forall₂ Spells (pairs.map fun x => "[ " ++ pr.value x.1 ++ ", " ++ pr.block x.2 ++ " ]")
      ((pairs.map sp.incoming).map incomingTokens) := by
  induction pairs with
  | nil => exact .nil
  | cons x pairs ih =>
    obtain ⟨hvalue, hblock⟩ := h x List.mem_cons_self
    refine .cons ?_ (ih fun y hy => h y (List.mem_cons_of_mem x hy))
    have := (((spells_value hsh _ x.1 hvalue).between ", " [.comma] (by decide) (by decide)
      (spells_block hsh hblock)).behind "[ " [.leftBracket] (by decide)).before " ]"
        [.rightBracket] (by decide) (by decide)
    simpa [incomingTokens, incoming, String.append_assoc] using this

theorem spells_operation (hsh : sp.Shows pr) (h : sp.Renders i op) :
    Spells (pr.operation i) (op.tokens (sp.calleeTy i)) := by
  cases h with
  | retVoid hkind hty hops =>
    simp only [Printer.operation, hkind, hops, List.head?_nil, Operation.tokens]
    have := (spells_word "void" (by decide)).behind "ret " [.keyword "ret"] (by decide)
    simpa using this
  | ret hkind hty hops hv hlead =>
    simp only [Printer.operation, hkind, hops, List.head?_cons, Operation.tokens]
    exact (spells_typed hsh hv).behind "ret " [.keyword "ret"] (by decide)
  | br hkind hty hops hdest =>
    simp only [Printer.operation, hkind, hops, Operation.tokens]
    exact (spells_label hsh hdest).behind "br " [.keyword "br"] (by decide)
  | condBr hkind hty hops hcond hlead hfalse htrue =>
    simp only [Printer.operation, hkind, hops, Operation.tokens]
    exact (spells_commas (.cons (spells_typed hsh hcond) (.cons (spells_label hsh htrue)
      (.cons (spells_label hsh hfalse) .nil)))).behind "br " [.keyword "br"] (by decide)
  | switch hkind hty hops hcond hdefault hcases =>
    simp only [Printer.operation, hkind, hops, Operation.tokens]
    have hhead := (spells_typed hsh hcond).between ", " [.comma] (by decide) (by decide)
      (spells_label hsh hdefault)
    have := (hhead.between " [" [.leftBracket] (by decide) (by decide)
      (spells_cases hsh hcases).1).behind "switch " [.keyword "switch"] (by decide)
    simpa only [String.append_assoc, List.append_assoc, List.cons_append, List.nil_append]
      using this
  | unreachable hkind hty hops =>
    simp only [Printer.operation, hkind, Operation.tokens]
    exact spells_word "unreachable" (by decide)
  | @call marker _ _ hkind hops hcall =>
    obtain ⟨hcallee, hargs⟩ := call_parts hkind hops
    simp only [Printer.operation, hkind, Operation.tokens, calleeTy, hcallee, Option.getD_some]
    have := marker_lead marker ((spells_callSite hsh hcallee hargs hcall).behind "call "
      [.keyword "call"] (by decide))
    simpa only [String.append_assoc, List.cons_append, List.nil_append] using this
  | invoke hkind hops hcall hnormal hunwind =>
    obtain ⟨hcallee, hargs, hdests⟩ := invoke_parts hkind hops
    simp only [Printer.operation, hkind, hdests, Operation.tokens, calleeTy, hcallee,
      Option.getD_some]
    have hdest := (spells_label hsh hnormal).between " unwind " [.keyword "unwind"] (by decide)
      (by decide) (spells_label hsh hunwind)
    have := ((spells_callSite hsh hcallee hargs hcall).between "\n          to " [.keyword "to"]
      (by decide) (by decide) hdest).behind "invoke " [.keyword "invoke"] (by decide)
    simpa only [String.append_assoc, List.append_assoc, List.cons_append, List.nil_append]
      using this
  | @binary op lhs rhs hkind hops hfits hlhs hrhs =>
    simp only [Printer.operation, hkind, hops, Operation.tokens, Printer.operand,
      List.getElem?_cons_zero, List.getElem?_cons_succ, Option.map_some, Option.getD_some]
    have hhead := spells_typed_of hfits (spells_value hsh _ lhs hlhs)
    have := (spells_word op.name (binaryOp_isWord op)).between " " [] (by decide) (by decide)
      (hhead.between ", " [.comma] (by decide) (by decide) (spells_value hsh _ rhs hrhs))
    simpa only [String.append_assoc, List.append_assoc, List.cons_append, List.nil_append]
      using this
  | @icmp pred lhs rhs hkind hty hops hlhs hrhs =>
    simp only [Printer.operation, hkind, hops, Operation.tokens, Printer.operand, List.head?_cons,
      List.getElem?_cons_zero, List.getElem?_cons_succ, Option.map_some, Option.getD_some, hsh.ty]
    have hhead := spells_typed_of hlhs.1 (spells_value hsh _ lhs hlhs.2)
    have := ((spells_word pred.name (predicate_isWord pred)).between " " [] (by decide) (by decide)
      (hhead.between ", " [.comma] (by decide) (by decide) (spells_value hsh _ rhs hrhs))).behind
        "icmp " [.keyword "icmp"] (by decide)
    simpa only [String.append_assoc, List.append_assoc, List.cons_append, List.nil_append]
      using this
  | @cast op v hkind hops hv hfits =>
    simp only [Printer.operation, hkind, hops, Operation.tokens, Printer.typedOperand,
      List.getElem?_cons_zero, Option.map_some, Option.getD_some]
    have := (spells_word op.name (castOp_isWord op)).between " " [] (by decide) (by decide)
      ((spells_typed hsh hv).between " to " [.keyword "to"] (by decide) (by decide)
        (i.ty.spells hfits))
    simpa only [String.append_assoc, List.append_assoc, List.cons_append, List.nil_append]
      using this
  | load hkind hops hfits hptr halign =>
    simp only [Printer.operation, hkind, hops, Operation.tokens, Printer.typedOperand,
      List.getElem?_cons_zero, Option.map_some, Option.getD_some]
    have := spells_align halign (((i.ty.spells hfits).between ", " [.comma] (by decide) (by decide)
      (spells_typed hsh hptr)).behind "load " [.keyword "load"] (by decide))
    simpa only [String.append_assoc, List.append_assoc, List.cons_append, List.nil_append]
      using this
  | store hkind hty hops hvalue hptr halign =>
    simp only [Printer.operation, hkind, hops, Operation.tokens, Printer.typedOperand,
      List.getElem?_cons_zero, List.getElem?_cons_succ, Option.map_some, Option.getD_some]
    have := spells_align halign (((spells_typed hsh hvalue).between ", " [.comma] (by decide)
      (by decide) (spells_typed hsh hptr)).behind "store " [.keyword "store"] (by decide))
    simpa only [String.append_assoc, List.append_assoc, List.cons_append, List.nil_append]
      using this
  | @alloca allocated align hkind hty hops hfits halign =>
    simp only [Printer.operation, hkind, Operation.tokens]
    exact spells_align halign ((allocated.spells hfits).behind "alloca " [.keyword "alloca"]
      (by decide))
  | @gep source inbounds base indices hkind hty hops hfits hbase hindices =>
    simp only [Printer.operation, hkind, hops, Operation.tokens, List.map_cons]
    have hall := spells_commas (.cons (source.spells hfits)
      (.cons (spells_typed hsh hbase) (forall₂_typed hsh hindices)))
    cases inbounds with
    | false =>
      have := hall.behind "getelementptr " [.keyword "getelementptr"] (by decide)
      simpa using this
    | true =>
      have := hall.behind "getelementptr inbounds "
        [.keyword "getelementptr", .keyword "inbounds"] (by decide)
      simpa using this
  | select hkind hty hops hcond htrue hfalse =>
    simp only [Printer.operation, hkind, hops, Operation.tokens, Printer.typedOperand,
      List.getElem?_cons_zero, List.getElem?_cons_succ, Option.map_some, Option.getD_some]
    exact (spells_commas (.cons (spells_typed hsh hcond) (.cons (spells_typed hsh htrue)
      (.cons (spells_typed hsh hfalse) .nil)))).behind "select " [.keyword "select"] (by decide)
  | @phi pairs hkind hops hne hfits hpairs =>
    have hzip : (pairs.map (·.1)).zip (pairs.map (·.2)) = pairs := by
      rw [List.zip_map']
      exact List.map_id pairs
    simp only [Printer.operation, hkind, hops, Operation.tokens, hzip]
    have := ((i.ty.spells hfits).between " " [] (by decide) (by decide)
      (spells_commas (spells_incoming hsh hpairs))).behind "phi " [.keyword "phi"] (by decide)
    simpa only [String.append_assoc, List.append_assoc, List.cons_append, List.nil_append]
      using this

/-! ## 6. Two printers -/

section

variable (hsh : sp.Shows pr) (hsh₂ : sp.Shows pr₂)

include hsh hsh₂

theorem block_eq (h : sp.HasSymbol (.block b)) : pr.block b = pr₂.block b :=
  slotText_eq h (hsh.block b) (hsh₂.block b)

theorem label_eq (h : sp.HasSymbol (.block b)) :
    pr.label (.block b) = pr₂.label (.block b) := by
  rw [label_block, label_block, block_eq hsh hsh₂ h]

theorem typed_map_eq (h : ∀ v ∈ vs, sp.PrintsTyped v) :
    vs.map pr.typed = vs.map pr₂.typed :=
  List.map_congr_left fun v hv => typed_eq hsh hsh₂ (h v hv)

theorem callSite_same (hcallee : i.callee? = some callee)
    (hargs : i.arguments = args) (h : sp.CallPrints i.ty callee args) :
    pr.callSite i = pr₂.callSite i := by
  rw [callSite_eq hsh hcallee hargs, callSite_eq hsh₂ hcallee hargs,
    value_eq hsh hsh₂ _ callee h.head, typed_map_eq hsh hsh₂ h.args]

theorem switchCases_eq (h : ∀ x ∈ cases, sp.PrintsTyped x.1 ∧ sp.HasSymbol (.block x.2)) :
    pr.switchCases (cases.flatMap fun x => [x.1, .block x.2]) =
      pr₂.switchCases (cases.flatMap fun x => [x.1, .block x.2]) := by
  induction cases with
  | nil => rfl
  | cons x cases ih =>
    obtain ⟨hvalue, hdest⟩ := h x List.mem_cons_self
    simp only [List.flatMap_cons, List.cons_append, List.nil_append, Printer.switchCases,
      typed_eq hsh hsh₂ hvalue, label_eq hsh hsh₂ hdest,
      ih fun y hy => h y (List.mem_cons_of_mem x hy)]

/-- Two printers that show the same spelling write the same operation. -/
theorem operation_eq (h : sp.Renders i op) : pr.operation i = pr₂.operation i := by
  have value := value_eq hsh hsh₂
  have typed {v : Value} := typed_eq (v := v) hsh hsh₂
  have label {b : BlockId} := label_eq (b := b) hsh hsh₂
  cases h with
  | retVoid hkind hty hops => simp only [Printer.operation, hkind, hops, List.head?_nil]
  | ret hkind hty hops hv hlead =>
    simp only [Printer.operation, hkind, hops, List.head?_cons, typed hv]
  | br hkind hty hops hdest => simp only [Printer.operation, hkind, hops, label hdest]
  | condBr hkind hty hops hcond hlead hfalse htrue =>
    simp only [Printer.operation, hkind, hops, typed hcond, label hfalse, label htrue]
  | switch hkind hty hops hcond hdefault hcases =>
    simp only [Printer.operation, hkind, hops, typed hcond, label hdefault,
      switchCases_eq hsh hsh₂ hcases]
  | unreachable hkind hty hops => simp only [Printer.operation, hkind]
  | call hkind hops hcall =>
    obtain ⟨hcallee, hargs⟩ := call_parts hkind hops
    simp only [Printer.operation, hkind, callSite_same hsh hsh₂ hcallee hargs hcall]
  | invoke hkind hops hcall hnormal hunwind =>
    obtain ⟨hcallee, hargs, hdests⟩ := invoke_parts hkind hops
    simp only [Printer.operation, hkind, hdests, callSite_same hsh hsh₂ hcallee hargs hcall,
      label hnormal, label hunwind]
  | binary hkind hops hfits hlhs hrhs =>
    simp only [Printer.operation, hkind, hops, Printer.operand, List.getElem?_cons_zero,
      List.getElem?_cons_succ, Option.map_some, value _ _ hlhs, value _ _ hrhs]
  | icmp hkind hty hops hlhs hrhs =>
    simp only [Printer.operation, hkind, hops, Printer.operand, List.getElem?_cons_zero,
      List.getElem?_cons_succ, Option.map_some, List.head?_cons, hsh.ty, hsh₂.ty,
      value _ _ hlhs.2, value _ _ hrhs]
  | cast hkind hops hv hfits =>
    simp only [Printer.operation, hkind, hops, Printer.typedOperand, List.getElem?_cons_zero,
      Option.map_some, typed hv]
  | load hkind hops hfits hptr halign =>
    simp only [Printer.operation, hkind, hops, Printer.typedOperand, List.getElem?_cons_zero,
      Option.map_some, typed hptr]
  | store hkind hty hops hvalue hptr halign =>
    simp only [Printer.operation, hkind, hops, Printer.typedOperand, List.getElem?_cons_zero,
      List.getElem?_cons_succ, Option.map_some, typed hvalue, typed hptr]
  | alloca hkind hty hops hfits halign => simp only [Printer.operation, hkind]
  | gep hkind hty hops hfits hbase hindices =>
    simp only [Printer.operation, hkind, hops, List.map_cons, typed hbase,
      typed_map_eq hsh hsh₂ hindices]
  | select hkind hty hops hcond htrue hfalse =>
    simp only [Printer.operation, hkind, hops, Printer.typedOperand, List.getElem?_cons_zero,
      List.getElem?_cons_succ, Option.map_some, typed hcond, typed htrue, typed hfalse]
  | @phi pairs hkind hops hne hfits hpairs =>
    have hmap : (pairs.map fun x => "[ " ++ pr.value x.1 ++ ", " ++ pr.block x.2 ++ " ]") =
        pairs.map fun x => "[ " ++ pr₂.value x.1 ++ ", " ++ pr₂.block x.2 ++ " ]" := by
      apply List.map_congr_left
      intro x hx
      rw [value _ _ (hpairs x hx).1, block_eq hsh hsh₂ (hpairs x hx).2]
    have hzip : (pairs.map (·.1)).zip (pairs.map (·.2)) = pairs := by
      rw [List.zip_map']
      exact List.map_id pairs
    simp only [Printer.operation, hkind, hops, hzip, hmap]

end

end Spelling

end Assembly

end QirProfile
