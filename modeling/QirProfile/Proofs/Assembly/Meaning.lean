import QirProfile.Proofs.Assembly.Definitions
import QirProfile.Proofs.Program.References

/-!
# What written operands mean

A `Lexicon` says what the symbols of a body stand for. `Term.Means` says of a written constant and a
value that they are the same, down to every element, index and converted value, where symbols are
read as the lexicon has it; `Operation.written` lists the operands of an operation in the order in
which an instruction holds them.
-/

namespace QirProfile.Assembly

/-! ## 1. Written operands -/

/-- What symbols stand for, and the named types that addresses lead through. -/
structure Lexicon where
  locals : Symbol → Value → Prop
  globals : Symbol → Value → Prop
  labels : Symbol → BlockId → Prop
  types : Program

mutual

/-- The value is the written one, where a value of the type is expected. -/
def Term.Means (L : Lexicon) (ty : Ty) : Term → Value → Prop
  | .local s, v => L.locals s v
  | .global s, v => L.globals s v
  | .int n, v => ∃ k, payload n = .ok k ∧ v = .ofInt (ty.width?.getD 64) k
  | .bool b, v => v = .ofBool b
  | .float bits, v => v = .float ty bits
  | .null, v => v = .null ty
  | .undef, v => v = .undef ty
  | .zero, v => v = .zero ty
  | .bytes data, v => v = .bytes data
  | .array ts, v => ∃ vs, v = .array ty vs ∧ TypedTerm.AllMean L ts vs
  | .struct ts, v => ∃ vs, v = .struct ty vs ∧ TypedTerm.AllMean L ts vs
  | .cast op t target, v => ∃ w, v = .cast op w target ∧ t.Means L w
  | .gep inbounds source base ts, v => ∃ w vs,
    v = .gep inbounds source w vs (L.types.gepTy source vs) ∧ base.Means L w ∧
      TypedTerm.AllMean L ts vs

/-- The value is the written one. -/
def TypedTerm.Means (L : Lexicon) : TypedTerm → Value → Prop
  | .mk ty t, v => t.Means L ty v

/-- The values are the written ones. -/
def TypedTerm.AllMean (L : Lexicon) : List TypedTerm → List Value → Prop
  | [], vs => vs = []
  | t :: ts, vs => ∃ w ws, vs = w :: ws ∧ t.Means L w ∧ TypedTerm.AllMean L ts ws

end

/-- An operand as it is written: a value of a type, or a label. -/
inductive Written where
  | value (ty : Ty) (term : Term)
  | label (symbol : Symbol)

/-- The operand is the written one. -/
def Written.Means (L : Lexicon) : Written → Value → Prop
  | value ty term, v => term.Means L ty v
  | label s, v => ∃ b, v = .block b ∧ L.labels s b

/-- A value with its type as an operand. -/
def TypedTerm.written : TypedTerm → Written
  | mk ty term => .value ty term

/-- The operands of an operation in the order in which an instruction holds them: a conditional
    branch holds the target for false first, and a call what it calls last. -/
def Operation.written : Operation → List Written
  | ret none | unreachable | alloca _ _ => []
  | ret (some value) => [value.written]
  | br dest => [.label dest]
  | condBr cond ifTrue ifFalse => [cond.written, .label ifFalse, .label ifTrue]
  | switch cond default cases =>
    cond.written :: .label default :: (cases.map fun x => [x.1.written, .label x.2]).flatten
  | call _ _ callee args => args.map TypedTerm.written ++ [.value .void callee]
  | invoke _ callee args normal unwind =>
    args.map TypedTerm.written ++ [.label normal, .label unwind, .value .void callee]
  | binary _ ty lhs rhs | icmp _ ty lhs rhs => [.value ty lhs, .value ty rhs]
  | cast _ value _ => [value.written]
  | load _ ptr _ => [ptr.written]
  | store value ptr _ => [value.written, ptr.written]
  | gep _ _ base indices => (base :: indices).map TypedTerm.written
  | select cond ifTrue ifFalse => [cond.written, ifTrue.written, ifFalse.written]
  | phi ty incoming => incoming.map fun x => .value ty x.1

/-- The incoming labels of a phi. -/
def Operation.incoming : Operation → List Symbol
  | phi _ incoming => incoming.map Prod.snd
  | _ => []

theorem Operation.length_incoming (ty : Ty) (incoming : List (Term × Symbol)) :
    (phi ty incoming).incoming.length = (phi ty incoming).written.length := by
  simp [Operation.incoming, Operation.written]

/-! ## 2. Resolved operands -/

/-- What names give out is what symbols stand for. -/
structure Lexicon.Covers (L : Lexicon) (names : Names) (scope : Scope) : Prop where
  locals : ∀ s v, names.local s = .ok v → L.locals s v
  globals : ∀ s v, names.global s = .ok v → L.globals s v
  labels : ∀ s b, scope.block s = .ok b → L.labels s b
  types : names.program.namedTypes = L.types.namedTypes

section

variable {L : Lexicon} {names : Names} {scope : Scope}

mutual

/-- A constant that was resolved means what is written. -/
theorem means_of_resolve (h : L.Covers names scope) : (ty : Ty) → (t : Term) → (v : Value) →
    resolveTerm names ty t = .ok v → t.Means L ty v
  | _, .local s, v, hv => h.locals s v (by simpa only [resolveTerm] using hv)
  | _, .global s, v, hv => h.globals s v (by simpa only [resolveTerm] using hv)
  | _, .int _, v, hv => by
    simp only [resolveTerm, except_bind_ok] at hv
    obtain ⟨k, hk, hv⟩ := hv
    cases hv
    exact ⟨k, hk, rfl⟩
  | _, .bool _, v, hv | _, .float _, v, hv | _, .null, v, hv | _, .undef, v, hv | _, .zero, v, hv
  | _, .bytes _, v, hv => by
    simp only [resolveTerm] at hv
    cases hv
    rfl
  | _, .array ts, v, hv | _, .struct ts, v, hv => by
    simp only [resolveTerm, except_bind_ok] at hv
    obtain ⟨vs, hvs, hv⟩ := hv
    cases hv
    exact ⟨vs, rfl, means_of_resolveAll h ts vs hvs⟩
  | _, .cast _ t _, v, hv => by
    simp only [resolveTerm, except_bind_ok] at hv
    obtain ⟨w, hw, hv⟩ := hv
    cases hv
    exact ⟨w, rfl, means_of_resolveTyped h t w hw⟩
  | _, .gep _ _ t ts, v, hv => by
    simp only [resolveTerm, except_bind_ok] at hv
    obtain ⟨ws, hws, w, hw, hv⟩ := hv
    cases hv
    exact ⟨w, ws, by rw [gepTy_congr h.types], means_of_resolveTyped h t w hw,
      means_of_resolveAll h ts ws hws⟩

theorem means_of_resolveTyped (h : L.Covers names scope) : (t : TypedTerm) → (v : Value) →
    resolveTyped names t = .ok v → t.Means L v
  | .mk ty t, v, hv => means_of_resolve h ty t v (by simpa only [resolveTyped] using hv)

theorem means_of_resolveAll (h : L.Covers names scope) : (ts : List TypedTerm) → (vs : List Value) →
    resolveAll names ts = .ok vs → TypedTerm.AllMean L ts vs
  | [], vs, hv => by
    simp only [resolveAll] at hv
    cases hv
    rfl
  | t :: ts, vs, hv => by
    simp only [resolveAll, except_bind_ok] at hv
    obtain ⟨w, hw, ws, hws, hv⟩ := hv
    cases hv
    exact ⟨w, ws, rfl, means_of_resolveTyped h t w hw, means_of_resolveAll h ts ws hws⟩

end

variable (h : L.Covers names scope)
include h

theorem written_of_resolveTyped (t : TypedTerm) {v : Value} (hv : resolveTyped names t = .ok v) :
    t.written.Means L v := by
  obtain ⟨ty, term⟩ := t
  exact means_of_resolveTyped h _ _ hv

theorem written_of_block (s : Symbol) {b : BlockId} (hb : scope.block s = .ok b) :
    (Written.label s).Means L (.block b) :=
  ⟨b, rfl, h.labels s b hb⟩

theorem written_of_resolveAll (ts : List TypedTerm) : ∀ (vs : List Value),
    resolveAll names ts = .ok vs →
      List.Forall₂ (Written.Means L) (ts.map TypedTerm.written) vs := by
  induction ts with
  | nil =>
    intro vs hvs
    cases hvs
    exact .nil
  | cons t ts ih =>
    intro vs hvs
    simp only [resolveAll, except_bind_ok] at hvs
    obtain ⟨w, hw, ws, hws, hvs⟩ := hvs
    cases hvs
    exact .cons (written_of_resolveTyped h t hw) (ih ws hws)

theorem written_of_cases (cases : List (TypedTerm × Symbol)) : ∀ {vss : List (List Value)},
    (cases.mapM fun (value, dest) => do
      let value ← resolveTyped names value
      return [value, .block (← scope.block dest)]) = .ok vss →
      List.Forall₂ (Written.Means L) (cases.map fun x => [x.1.written, .label x.2]).flatten
        vss.flatten := by
  induction cases with
  | nil =>
    intro vss hvss
    cases hvss
    exact .nil
  | cons x cases ih =>
    intro vss hvss
    simp only [List.mapM_cons, except_bind_ok] at hvss
    obtain ⟨vs, ⟨w, hw, b, hb, hvs⟩, wss, hwss, hvss⟩ := hvss
    cases hvs
    cases hvss
    exact .cons (written_of_resolveTyped h x.1 hw) (.cons (written_of_block h x.2 hb) (ih hwss))

theorem written_of_incoming (ty : Ty) (incoming : List (Term × Symbol)) :
    ∀ {pairs : List (Value × BlockId)},
      (incoming.mapM fun (value, block) => do
        let value ← resolveTerm names ty value
        return (value, ← scope.block block)) = .ok pairs →
      List.Forall₂ (Written.Means L) (incoming.map fun x => .value ty x.1) (pairs.map (·.1)) ∧
        List.Forall₂ L.labels (incoming.map Prod.snd) (pairs.map (·.2)) := by
  induction incoming with
  | nil =>
    intro pairs hpairs
    cases hpairs
    exact ⟨.nil, .nil⟩
  | cons x incoming ih =>
    intro pairs hpairs
    simp only [List.mapM_cons, except_bind_ok] at hpairs
    obtain ⟨y, ⟨w, hw, b, hb, hy⟩, rest, hrest, hpairs⟩ := hpairs
    cases hy
    cases hpairs
    obtain ⟨hvalues, hblocks⟩ := ih hrest
    exact ⟨.cons (means_of_resolve h ty x.1 w hw) hvalues, .cons (h.labels x.2 b hb) hblocks⟩

theorem means_of_operands (op : Operation) {vs : List Value} {bs : List BlockId}
    (hop : op.operands names scope = .ok (vs, bs)) :
    List.Forall₂ (Written.Means L) op.written vs ∧ List.Forall₂ L.labels op.incoming bs := by
  have htyped := fun t v => written_of_resolveTyped h t (v := v)
  have hterm := means_of_resolve h
  have hall := written_of_resolveAll h
  have hblock := fun s b => written_of_block h s (b := b)
  cases op with
  | ret value =>
    cases value with
    | none =>
      cases hop
      exact ⟨.nil, .nil⟩
    | some value =>
      simp only [Operation.operands, except_bind_ok] at hop
      obtain ⟨v, hv, hop⟩ := hop
      cases hop
      exact ⟨.cons (htyped _ _ hv) .nil, .nil⟩
  | unreachable | alloca =>
    cases hop
    exact ⟨.nil, .nil⟩
  | br dest =>
    simp only [Operation.operands, except_bind_ok] at hop
    obtain ⟨b, hb, hop⟩ := hop
    cases hop
    exact ⟨.cons (hblock _ _ hb) .nil, .nil⟩
  | condBr cond ifTrue ifFalse =>
    simp only [Operation.operands, except_bind_ok] at hop
    obtain ⟨v, hv, b, hb, c, hc, hop⟩ := hop
    cases hop
    exact ⟨.cons (htyped _ _ hv) (.cons (hblock _ _ hb) (.cons (hblock _ _ hc) .nil)), .nil⟩
  | switch cond default cases =>
    simp only [Operation.operands, except_bind_ok] at hop
    obtain ⟨v, hv, b, hb, vss, hvss, hop⟩ := hop
    cases hop
    exact ⟨.cons (htyped _ _ hv) (.cons (hblock _ _ hb) (written_of_cases h cases hvss)), .nil⟩
  | call marker result callee args =>
    simp only [Operation.operands, except_bind_ok] at hop
    obtain ⟨ws, hws, v, hv, hop⟩ := hop
    cases hop
    exact ⟨List.rel_append (hall _ _ hws) (.cons (hterm _ _ _ hv) .nil), .nil⟩
  | invoke result callee args normal unwind =>
    simp only [Operation.operands, except_bind_ok] at hop
    obtain ⟨ws, hws, b, hb, c, hc, v, hv, hop⟩ := hop
    cases hop
    exact ⟨List.rel_append (hall _ _ hws)
      (.cons (hblock _ _ hb) (.cons (hblock _ _ hc) (.cons (hterm _ _ _ hv) .nil))), .nil⟩
  | binary op ty lhs rhs | icmp pred ty lhs rhs =>
    simp only [Operation.operands, except_bind_ok] at hop
    obtain ⟨v, hv, w, hw, hop⟩ := hop
    cases hop
    exact ⟨.cons (hterm _ _ _ hv) (.cons (hterm _ _ _ hw) .nil), .nil⟩
  | cast op value target | load ty value align =>
    simp only [Operation.operands, except_bind_ok] at hop
    obtain ⟨v, hv, hop⟩ := hop
    cases hop
    exact ⟨.cons (htyped _ _ hv) .nil, .nil⟩
  | store value ptr align | gep inbounds source base indices | select cond ifTrue ifFalse =>
    simp only [Operation.operands, except_bind_ok] at hop
    obtain ⟨ws, hws, hop⟩ := hop
    cases hop
    exact ⟨hall _ _ hws, .nil⟩
  | phi ty incoming =>
    simp only [Operation.operands, except_bind_ok] at hop
    obtain ⟨pairs, hpairs, hop⟩ := hop
    cases hop
    exact written_of_incoming h ty incoming hpairs

end

/-! ## 3. What can be used -/

/-- What symbols stand for can be used in the function. -/
structure Lexicon.Usable (L : Lexicon) (p : Program) (f : FuncId) : Prop where
  locals : ∀ s v, L.locals s v → ∀ needle, Value.mentions needle v = true → p.Usable f needle
  globals : ∀ s v, L.globals s v → ∀ needle, Value.mentions needle v = true → p.Usable f needle
  labels : ∀ s b, L.labels s b → p.Usable f (.block b)

section

variable {L : Lexicon} {p : Program} {f : FuncId} {needle : Value}

mutual

theorem Term.Means.usable (h : L.Usable p f) : (ty : Ty) → (t : Term) → (v : Value) → t.Means L ty v →
    Value.mentions needle v = true → p.Usable f needle
  | _, .local s, v, hv, hn => h.locals s v hv needle hn
  | _, .global s, v, hv, hn => h.globals s v hv needle hn
  | _, .int _, v, hv, hn => by
    obtain ⟨k, -, rfl⟩ := hv
    obtain rfl := eq_of_beq (show (_ == needle) = true from hn)
    exact True.intro
  | _, .bool _, v, hv, hn | _, .float _, v, hv, hn | _, .null, v, hv, hn | _, .undef, v, hv, hn
  | _, .zero, v, hv, hn | _, .bytes _, v, hv, hn => by
    cases hv
    obtain rfl := eq_of_beq (show (_ == needle) = true from hn)
    exact True.intro
  | _, .array ts, v, hv, hn | _, .struct ts, v, hv, hn => by
    obtain ⟨vs, rfl, hvs⟩ := hv
    rcases Bool.or_eq_true_iff.mp hn with hn | hn
    · obtain rfl := eq_of_beq hn
      exact True.intro
    · exact TypedTerm.AllMean.usable h ts vs hvs hn
  | _, .cast _ t _, v, hv, hn => by
    obtain ⟨w, rfl, hw⟩ := hv
    rcases Bool.or_eq_true_iff.mp hn with hn | hn
    · obtain rfl := eq_of_beq hn
      exact True.intro
    · exact TypedTerm.Means.usable h t w hw hn
  | _, .gep _ _ t ts, v, hv, hn => by
    obtain ⟨w, vs, rfl, hw, hvs⟩ := hv
    rcases Bool.or_eq_true_iff.mp hn with hn | hn
    · rcases Bool.or_eq_true_iff.mp hn with hn | hn
      · obtain rfl := eq_of_beq hn
        exact True.intro
      · exact TypedTerm.Means.usable h t w hw hn
    · exact TypedTerm.AllMean.usable h ts vs hvs hn

theorem TypedTerm.Means.usable (h : L.Usable p f) : (t : TypedTerm) → (v : Value) → t.Means L v →
    Value.mentions needle v = true → p.Usable f needle
  | .mk ty t, v, hv, hn => Term.Means.usable h ty t v hv hn

theorem TypedTerm.AllMean.usable (h : L.Usable p f) : (ts : List TypedTerm) → (vs : List Value) →
    TypedTerm.AllMean L ts vs → Value.mentionsAny needle vs = true → p.Usable f needle
  | [], vs, hvs, hn => by
    cases hvs
    cases hn
  | t :: ts, vs, hvs, hn => by
    obtain ⟨w, ws, rfl, hw, hws⟩ := hvs
    rcases Bool.or_eq_true_iff.mp hn with hn | hn
    · exact TypedTerm.Means.usable h t w hw hn
    · exact TypedTerm.AllMean.usable h ts ws hws hn

end

theorem Written.Means.usable (h : L.Usable p f) {x : Written} {v : Value} (hv : x.Means L v)
    (hn : Value.mentions needle v = true) : p.Usable f needle := by
  cases x with
  | value ty t => exact Term.Means.usable h ty t v hv hn
  | label s =>
    obtain ⟨b, rfl, hb⟩ := hv
    obtain rfl := eq_of_beq (show (_ == needle) = true from hn)
    exact h.labels s b hb

end

end QirProfile.Assembly
