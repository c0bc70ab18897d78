import QirProfile.Assembly.Terms
import QirProfile.Proofs.Assembly.Taking

/-!
# Types and terms are read from their tokens
-/

namespace QirProfile.Assembly

open Reader

variable {ts us : List Token} {t : Ty} {x : Token} {value : Reader Term}

/-! ## 1. First tokens -/

/-- Whether a token starts a type. -/
def startsType : Token → Bool
  | .intType _ | .localName _ | .leftBracket | .leftBrace => true
  | .keyword word => isTypeWord word
  | _ => false

/-- Whether a token goes on with the type in front of it. -/
def continuesType : Token → Bool
  | .star | .leftParen => true
  | .keyword word => word == "addrspace"
  | _ => false

/-- The tokens do not go on with a type in front of them. -/
def EndsType (ts : List Token) : Prop :=
  ∀ t ∈ ts.head?, continuesType t = false

theorem endsType_cons {t : Token} (h : continuesType t = false) :
    EndsType (t :: ts) := by
  intro x hx
  cases hx
  exact h

theorem tokens_starts : (t : Ty) → ∃ x xs, t.tokens = x :: xs ∧ startsType x = true
  | .void => ⟨_, _, by simp only [Ty.tokens]; rfl, by decide⟩
  | .half => ⟨_, _, by simp only [Ty.tokens]; rfl, by decide⟩
  | .float => ⟨_, _, by simp only [Ty.tokens]; rfl, by decide⟩
  | .double => ⟨_, _, by simp only [Ty.tokens]; rfl, by decide⟩
  | .label => ⟨_, _, by simp only [Ty.tokens]; rfl, by decide⟩
  | .metadata => ⟨_, _, by simp only [Ty.tokens]; rfl, by decide⟩
  | .int bits => ⟨_, _, by simp only [Ty.tokens]; rfl, rfl⟩
  | .named name => ⟨_, _, by simp only [Ty.tokens]; rfl, rfl⟩
  | .array n t => ⟨_, _, by simp only [Ty.tokens]; rfl, rfl⟩
  | .struct ts => ⟨_, _, by simp only [Ty.tokens]; rfl, rfl⟩
  | .ptr t => by
    obtain ⟨x, xs, hx, hs⟩ := tokens_starts t
    exact ⟨x, xs ++ [.star], by simp only [Ty.tokens, hx, List.cons_append], hs⟩
  | .func r ts varArg => by
    obtain ⟨x, xs, hx, hs⟩ := tokens_starts r
    exact ⟨x, _, by simp only [Ty.tokens, hx, List.cons_append]; rfl, hs⟩

theorem head?_type_ne (h : startsType x = false) :
    (t.tokens ++ us).head? ≠ some x := by
  obtain ⟨y, ys, hy, hs⟩ := tokens_starts t
  rw [hy]
  intro heq
  cases heq
  rw [h] at hs
  cases hs

theorem accept_type {vs : List Token} {β : Type} {b : β} {f : Bool → Reader β}
    (x : Token) (h : startsType x = false) :
    Takes (accept x >>= f) (t.tokens ++ us) b vs ↔ Takes (f false) (t.tokens ++ us) b vs :=
  accept_ne (head?_type_ne h)

theorem length_tokens_pos (t : Ty) : 0 < t.tokens.length := by
  obtain ⟨y, ys, hy, -⟩ := tokens_starts t
  rw [hy]
  exact Nat.succ_pos _

theorem length_le_commaTokens {xs : List (List Token)} {x : List Token} (h : x ∈ xs) :
    x.length ≤ (commaTokens xs).length := by
  induction xs with
  | nil => cases h
  | cons y xs ih =>
    cases xs with
    | nil =>
      rw [List.mem_singleton] at h
      rw [h]
      exact Nat.le_refl _
    | cons z xs =>
      rw [commaTokens_cons, List.length_append, List.length_cons]
      rcases List.mem_cons.mp h with rfl | h
      · omega
      · have := ih h
        omega

/-! ## 2. Attributes of parameters -/

theorem takes_skipParamAttributes
    (h : ∀ word, ts.head? = some (.keyword word) → (isValueWord word || isTypeWord word) = true) :
    Takes skipParamAttributes ts () ts := by
  apply Loops.takes
  apply Loops.done
  rw [peek_bind]
  cases hts : ts.head? with
  | none => simp
  | some t =>
    cases t with
    | keyword word => simp [h word hts]
    | _ => simp

theorem takes_skipParamAttributes_of {t : Token} (h : ts.head? = some t)
    (ht : ∀ word, t ≠ .keyword word) : Takes skipParamAttributes ts () ts := by
  apply takes_skipParamAttributes
  intro word hword
  rw [h] at hword
  cases hword
  exact absurd rfl (ht word)

/-! ## 3. Function types -/

/-- The tokens between the parentheses of a function type. -/
def paramTokens (ts : List Ty) (varArg : Bool) : List Token :=
  commaTokens (ts.map Ty.tokens ++ if varArg then [[.ellipsis]] else [])

theorem paramTokens_cons (t : Ty) (ts : List Ty) (varArg : Bool) :
    paramTokens (t :: ts) varArg = t.tokens ++
      (if ts = [] ∧ varArg = false then [] else .comma :: paramTokens ts varArg) := by
  cases ts with
  | nil => cases varArg <;> simp [paramTokens, commaTokens]
  | cons u ts => simp [paramTokens, commaTokens]

theorem takes_paramTypes {ty : Reader Ty} {ts : List Ty} {varArg : Bool}
    (h : ∀ t ∈ ts, ∀ vs, EndsType vs → Takes ty (t.tokens ++ vs) t vs) :
    Takes (paramTypes ty) (paramTokens ts varArg ++ .rightParen :: us) (ts, varArg) us := by
  unfold paramTypes
  apply Loops.takes
  refine (fun hall : ∀ d, Loops ?step (d, false) (paramTokens ts varArg ++ .rightParen :: us)
    (d ++ ts, varArg) us => hall []) ?_
  induction ts with
  | nil =>
    intro d
    apply Loops.done
    cases varArg <;> simp [paramTokens, commaTokens, -bind_pure_comp]
  | cons t ts ih =>
    intro d
    have htail := ih (fun u hu => h u (List.mem_cons_of_mem t hu)) (d ++ [t])
    rw [List.append_assoc] at htail
    rw [paramTokens_cons]
    by_cases hlast : ts = [] ∧ varArg = false
    · obtain ⟨rfl, rfl⟩ := hlast
      apply Loops.done
      have hty := h t List.mem_cons_self (.rightParen :: us) (endsType_cons rfl)
      have hskip : Takes skipParamAttributes (.rightParen :: us) () (.rightParen :: us) :=
        takes_skipParamAttributes_of rfl (by simp)
      simp [accept_type .rightParen rfl, accept_type .ellipsis rfl, takes_bind hty,
        takes_bind hskip, -bind_pure_comp]
    · have hty := h t List.mem_cons_self (.comma :: (paramTokens ts varArg ++ .rightParen :: us))
        (endsType_cons rfl)
      have hskip : Takes skipParamAttributes
          (.comma :: (paramTokens ts varArg ++ .rightParen :: us)) ()
          (.comma :: (paramTokens ts varArg ++ .rightParen :: us)) :=
        takes_skipParamAttributes_of rfl (by simp)
      rw [if_neg hlast, List.append_assoc, List.cons_append]
      refine .again ?_ ?_ htail
      · simp [accept_type .rightParen rfl, accept_type .ellipsis rfl, takes_bind hty,
          takes_bind hskip, -bind_pure_comp]
      · simp only [List.length_append, List.length_cons]
        omega

/-! ## 4. Types -/

theorem typeSuffixes_steps (ty : Reader Ty) : ∃ step,
    (∀ t, typeSuffixes ty t = repeatStep step t) ∧
    (∀ t us, Takes (step t) (.star :: us) (.again (.ptr t)) us) ∧
    (∀ t us, EndsType us → Takes (step t) us (.done t) us) ∧
    ∀ t ts params varArg us, Takes (paramTypes ty) ts (params, varArg) us →
      Takes (step t) (.leftParen :: ts) (.again (.func t params varArg)) us := by
  refine ⟨_, fun t => rfl, ?_, ?_, ?_⟩
  · intro t us
    simp
  · intro t us h
    have hne : ∀ x, continuesType x = true → us.head? ≠ some x := by
      intro x hx heq
      have := h x heq
      rw [hx] at this
      cases this
    rw [accept_ne (hne .star rfl)]
    simp only [Bool.false_eq_true, if_false, acceptWord]
    rw [accept_ne (hne (.keyword "addrspace") rfl)]
    simp only [Bool.false_eq_true, if_false]
    rw [accept_ne (hne .leftParen rfl)]
    simp
  · intro t ts params varArg us h
    simp [acceptWord, takes_bind h, -bind_pure_comp]

/-- Types nested less deeply than `depth` are read by `ty`. -/
def ReadsWithin (ty : Reader Ty) (depth : Nat) : Prop :=
  ∀ t us, t.tokens.length ≤ depth → t.Fits → EndsType us → Takes ty (t.tokens ++ us) t us

theorem takes_arrayLength {n : Nat} (h : n < span 64) :
    Takes arrayLength (.integer n :: us) n us := by
  have hn : (0 : Int) ≤ n ∧ (n : Int) < span 64 := ⟨by omega, by omega⟩
  simp only [arrayLength, next_bind]
  rw [if_pos hn]
  simp

theorem takes_head {ty : Reader Ty} {depth : Nat} (hty : ReadsWithin ty depth)
    {step : Ty → Reader (Step Ty Ty)}
    (hstar : ∀ t us, Takes (step t) (.star :: us) (.again (.ptr t)) us)
    (hparams : ∀ t ts params varArg us, Takes (paramTypes ty) ts (params, varArg) us →
      Takes (step t) (.leftParen :: ts) (.again (.func t params varArg)) us) :
    (t : Ty) → t.tokens.length ≤ depth + 1 → t.Fits → ∀ us a vs, Loops step t us a vs →
      ∃ head us', Takes (typeHead ty) (t.tokens ++ us) head us' ∧ Loops step head us' a vs
  | .void, _, _, us, _, _, h | .half, _, _, us, _, _, h | .float, _, _, us, _, _, h
  | .double, _, _, us, _, _, h | .label, _, _, us, _, _, h | .metadata, _, _, us, _, _, h => by
    refine ⟨_, us, ?_, h⟩
    simp [Ty.tokens, typeHead, typeOfWord?]
  | .int _, _, _, us, _, _, h | .named _, _, _, us, _, _, h => by
    refine ⟨_, us, ?_, h⟩
    simp [Ty.tokens, typeHead]
  | .array n t, hlen, hfits, us, _, _, h => by
    simp only [Ty.Fits] at hfits
    simp only [Ty.tokens, List.length_cons, List.length_append] at hlen
    have helement := hty t (.rightBracket :: us) (by omega) hfits.2 (endsType_cons rfl)
    refine ⟨_, us, ?_, h⟩
    simp [Ty.tokens, typeHead, takes_bind (takes_arrayLength hfits.1), takes_bind helement,
      -bind_pure_comp]
  | .struct ts, hlen, hfits, us, _, _, h => by
    simp only [Ty.Fits, Ty.allFit_iff] at hfits
    simp only [Ty.tokens, List.length_cons, List.length_append] at hlen
    have hfields : Takes (commaList .rightBrace ty)
        (commaTokens (ts.map Ty.tokens) ++ .rightBrace :: us) ts us := by
      apply takes_commaList Ty.tokens (by simp)
      · intro t _ vs
        exact head?_type_ne rfl
      · intro t ht vs hvs
        refine hty t vs ?_ (hfits t ht) ?_
        · have := length_le_commaTokens (List.mem_map_of_mem (f := Ty.tokens) ht)
          rw [← Ty.tokensAll_eq_map] at this
          omega
        · intro x hx
          rcases hvs with hvs | hvs <;> · rw [hvs] at hx; cases hx; rfl
    refine ⟨_, us, ?_, h⟩
    simp [Ty.tokens, typeHead, Ty.tokensAll_eq_map, takes_bind hfields, -bind_pure_comp]
  | .ptr t, hlen, hfits, us, a, vs, h => by
    simp only [Ty.Fits] at hfits
    simp only [Ty.tokens, List.length_append] at hlen
    have hmore : Loops step t (.star :: us) a vs := .again (hstar t us) (by simp) h
    obtain ⟨head, us', hhead, hloop⟩ :=
      takes_head hty hstar hparams t (by omega) hfits _ _ _ hmore
    exact ⟨head, us', by simpa [Ty.tokens] using hhead, hloop⟩
  | .func r ts varArg, hlen, hfits, us, a, vs, h => by
    simp only [Ty.Fits, Ty.allFit_iff] at hfits
    simp only [Ty.tokens, List.length_append, List.length_cons] at hlen
    have hps : Takes (paramTypes ty) (paramTokens ts varArg ++ .rightParen :: us) (ts, varArg) us := by
      apply takes_paramTypes
      intro t ht vs hvs
      refine hty t vs ?_ (hfits.2 t ht) hvs
      have hmem : t.tokens ∈ Ty.tokensAll ts ++ (if varArg then [[Token.ellipsis]] else []) := by
        rw [Ty.tokensAll_eq_map]
        exact List.mem_append_left _ (List.mem_map_of_mem ht)
      have := length_le_commaTokens hmem
      omega
    have hmore : Loops step r (.leftParen :: (paramTokens ts varArg ++ .rightParen :: us)) a vs := by
      refine .again (hparams r _ ts varArg us hps) ?_ h
      simp only [List.length_cons, List.length_append]
      omega
    obtain ⟨head, us', hhead, hloop⟩ :=
      takes_head hty hstar hparams r (by omega) hfits.1 _ _ _ hmore
    refine ⟨head, us', ?_, hloop⟩
    simpa [Ty.tokens, paramTokens, Ty.tokensAll_eq_map] using hhead

theorem reads_typeWithin (depth : Nat) : ReadsWithin (typeWithin depth) depth := by
  induction depth with
  | zero =>
    intro t us hlen
    have := length_tokens_pos t
    omega
  | succ depth ih =>
    intro t us hlen hfits hend
    obtain ⟨step, hstep, hstar, hdone, hparams⟩ := typeSuffixes_steps (typeWithin depth)
    obtain ⟨head, us', hhead, hloop⟩ :=
      takes_head ih hstar hparams t hlen hfits us t us (.done (hdone t us hend))
    simp only [typeWithin]
    rw [takes_bind hhead, hstep]
    exact hloop.takes

theorem takes_within {α : Type} {r : Nat → Reader α} {a : α}
    (h : Takes (r (ts.length + 1)) ts a us) :
    Takes (do r ((← get).rest.length + 1)) ts a us := by
  have hrun : ∀ c : Cursor, c.tokens = ts →
      (do r ((← get).rest.length + 1) : Reader α) c = r (ts.length + 1) c := by
    rintro c rfl
    change r (c.rest.length + 1) c = _
    simp [Cursor.tokens]
  constructor
  · intro c hc
    rw [hrun c hc]
    exact h.run c hc
  · intro c' hc'
    obtain ⟨c, hc, hr⟩ := h.back c' hc'
    exact ⟨c, hc, by rw [hrun c hc, hr]⟩

/-- A type is read from its tokens in front of what does not go on with it. -/
theorem takes_type (hfits : t.Fits) (hend : EndsType us) :
    Takes type (t.tokens ++ us) t us := by
  apply takes_within
  apply reads_typeWithin _ t us _ hfits hend
  simp only [List.length_append]
  omega

/-! ## 5. First tokens of terms -/

/-- Whether a token starts a value. -/
def startsTerm : Token → Bool
  | .localName _ | .localId _ | .globalName _ | .globalId _ | .integer _ | .decimal _ | .hexBits _
  | .bytes _ | .leftBracket | .leftBrace => true
  | .keyword word => isValueWord word
  | _ => false

theorem isValueWord_cast (op : CastOp) : isValueWord op.name = true := by
  cases op <;> decide

theorem term_starts (t : Term) : ∃ x xs, t.tokens = x :: xs ∧ startsTerm x = true := by
  cases t with
  | «local» s => cases s <;> exact ⟨_, _, by simp only [Term.tokens]; rfl, rfl⟩
  | global s => cases s <;> exact ⟨_, _, by simp only [Term.tokens]; rfl, rfl⟩
  | int v => exact ⟨_, _, by simp only [Term.tokens]; rfl, rfl⟩
  | bool b => cases b <;> exact ⟨_, _, by simp only [Term.tokens]; rfl, by decide⟩
  | float bits =>
    refine ⟨_, _, by simp only [Term.tokens]; rfl, ?_⟩
    unfold floatToken
    split <;> rfl
  | null | undef | zero => exact ⟨_, _, by simp only [Term.tokens]; rfl, by decide⟩
  | bytes data => exact ⟨_, _, by simp only [Term.tokens]; rfl, rfl⟩
  | array es => exact ⟨_, _, by simp only [Term.tokens]; rfl, rfl⟩
  | struct fs => exact ⟨_, _, by simp only [Term.tokens]; rfl, rfl⟩
  | cast op v target => exact ⟨.keyword op.name, _, by simp only [Term.tokens]; rfl, isValueWord_cast op⟩
  | gep inbounds source base indices => exact ⟨_, _, by simp only [Term.tokens]; rfl, by decide⟩

theorem head?_term_ne {t : Term} (h : startsTerm x = false) :
    (t.tokens ++ us).head? ≠ some x := by
  obtain ⟨y, ys, hy, hs⟩ := term_starts t
  rw [hy]
  intro heq
  cases heq
  rw [h] at hs
  cases hs

theorem endsType_term (t : Term) (us : List Token) : EndsType (t.tokens ++ us) := by
  intro x hx
  by_contra hcont
  refine head?_term_ne ?_ hx
  cases x with
  | keyword word =>
    simp only [continuesType, Bool.not_eq_false, beq_iff_eq] at hcont
    rw [hcont]
    decide
  | star | leftParen => rfl
  | _ => exact absurd rfl hcont

theorem takes_skip_term (t : Term) (us : List Token) :
    Takes skipParamAttributes (t.tokens ++ us) () (t.tokens ++ us) := by
  apply takes_skipParamAttributes
  intro word hword
  obtain ⟨y, ys, hy, hs⟩ := term_starts t
  rw [hy] at hword
  cases hword
  have hvalue : isValueWord word = true := hs
  rw [hvalue]
  rfl

theorem length_term_pos (t : Term) : 0 < t.tokens.length := by
  obtain ⟨y, ys, hy, -⟩ := term_starts t
  rw [hy]
  exact Nat.succ_pos _

theorem head?_typedTerm_ne {t : TypedTerm}
    (h : startsType x = false) : (t.tokens ++ us).head? ≠ some x := by
  obtain ⟨ty, term⟩ := t
  simp only [TypedTerm.tokens, List.append_assoc]
  exact head?_type_ne h

/-! ## 6. Terms -/

mutual

/-- The types inside a term can be read back. -/
def Term.Fits : Term → Prop
  | .array elements => TypedTerm.AllFit elements
  | .struct fields => TypedTerm.AllFit fields
  | .cast _ value target => value.Fits ∧ target.Fits
  | .gep _ source base indices => source.Fits ∧ base.Fits ∧ TypedTerm.AllFit indices
  | .local _ | .global _ | .int _ | .bool _ | .float _ | .null | .undef | .zero | .bytes _ => True

/-- The type of a term and those inside it can be read back. -/
def TypedTerm.Fits : TypedTerm → Prop
  | .mk ty term => ty.Fits ∧ term.Fits

/-- Every typed term of a list fits. -/
def TypedTerm.AllFit : List TypedTerm → Prop
  | [] => True
  | t :: ts => t.Fits ∧ TypedTerm.AllFit ts

end

theorem TypedTerm.allFit_iff {ts : List TypedTerm} : TypedTerm.AllFit ts ↔ ∀ t ∈ ts, t.Fits := by
  induction ts with
  | nil => simp [TypedTerm.AllFit]
  | cons t ts ih => simp [TypedTerm.AllFit, ih]

theorem takes_typed {t : TypedTerm} (hfits : t.Fits)
    (h : Takes value (t.term.tokens ++ us) t.term us) : Takes (typed value) (t.tokens ++ us) t us := by
  obtain ⟨ty, term⟩ := t
  simp only [TypedTerm.Fits] at hfits
  simp only [TypedTerm.term] at h
  simp only [typed, TypedTerm.tokens, List.append_assoc]
  rw [takes_bind (takes_type hfits.1 (endsType_term term us)),
    takes_bind (takes_skip_term term us), takes_bind h]
  simp

/-- Tokens, each behind a comma. -/
def trailTokens (xs : List (List Token)) : List Token :=
  xs.flatMap (.comma :: ·)

theorem trailTokens_cons (x : List Token) (xs : List (List Token)) :
    trailTokens (x :: xs) = .comma :: (x ++ trailTokens xs) := rfl

theorem length_le_trailTokens {xs : List (List Token)} {x : List Token} (h : x ∈ xs) :
    x.length ≤ (trailTokens xs).length := by
  obtain ⟨before, after, rfl⟩ := List.append_of_mem h
  simp only [trailTokens, List.flatMap_append, List.flatMap_cons, List.length_append,
    List.length_cons]
  omega

theorem commaTokens_eq (x : List Token) (xs : List (List Token)) :
    commaTokens (x :: xs) = x ++ trailTokens xs := by
  induction xs generalizing x with
  | nil => simp [commaTokens, trailTokens]
  | cons y xs ih =>
    rw [commaTokens_cons, ih y, trailTokens_cons]

theorem loops_trail {step : List TypedTerm → Reader (Step (List TypedTerm) (List TypedTerm))}
    {ts : List TypedTerm} (hdone : ∀ d, Takes (step d) us (.done d) us)
    (hagain : ∀ t ∈ ts, ∀ d vs, Takes (step d) (.comma :: (t.tokens ++ vs)) (.again (d ++ [t])) vs)
    (d : List TypedTerm) :
    Loops step d (trailTokens (ts.map TypedTerm.tokens) ++ us) (d ++ ts) us := by
  induction ts generalizing d with
  | nil => exact .done (by simpa [trailTokens] using hdone d)
  | cons t ts ih =>
    have htail := ih (fun u hu => hagain u (List.mem_cons_of_mem t hu)) (d ++ [t])
    rw [List.append_assoc] at htail
    rw [List.map_cons, trailTokens_cons, List.cons_append, List.append_assoc]
    refine .again (hagain t List.mem_cons_self d _) ?_ htail
    simp only [List.length_cons, List.length_append]
    omega

theorem takes_moreTyped {ts : List TypedTerm}
    (hus : us.head? ≠ some .comma)
    (h : ∀ t ∈ ts, ∀ vs, Takes (typed value) (t.tokens ++ vs) t vs) :
    Takes (moreTyped value) (trailTokens (ts.map TypedTerm.tokens) ++ us) ts us := by
  unfold moreTyped
  refine Loops.takes (loops_trail (fun d => ?_) (fun t ht d vs => ?_) [])
  · rw [accept_ne hus]
    simp
  · simp [takes_bind (h t ht _), -bind_pure_comp]

theorem wordConstant_cast (value : Reader Term) (op : CastOp) :
    wordConstant value op.name = (do
      expect .leftParen
      let operand ← typed value
      expectWord "to"
      let target ← type
      expect .rightParen
      return .cast op operand target) := by
  cases op <;> rfl

theorem takes_leaf {t : Term}
    (htokens : t.tokens = [x])
    (h : ∀ line rest l, value ⟨⟨x, line⟩ :: rest, l⟩ = .ok (t, ⟨rest, line⟩)) :
    Takes value (t.tokens ++ us) t us := by
  rw [htokens]
  exact takes_one h

theorem takes_termWithin (depth : Nat) : ∀ (t : Term) (us : List Token),
    t.tokens.length ≤ depth → t.Fits → Takes (termWithin depth) (t.tokens ++ us) t us := by
  induction depth with
  | zero =>
    intro t us hlen
    have := length_term_pos t
    omega
  | succ depth ih =>
    -- What stands inside brackets is read one level down.
    have nested : ∀ t : TypedTerm, t.tokens.length ≤ depth → t.Fits → ∀ us,
        Takes (typed (termWithin depth)) (t.tokens ++ us) t us := by
      rintro ⟨ty, term⟩ hlen hfits us
      simp only [TypedTerm.tokens, List.length_append] at hlen
      have hterm := hfits
      simp only [TypedTerm.Fits] at hterm
      exact takes_typed hfits (ih term us (by omega) hterm.2)
    have list : ∀ (close : Token) (ts : List TypedTerm), close ≠ .comma →
        startsType close = false → (commaTokens (ts.map TypedTerm.tokens)).length ≤ depth →
        TypedTerm.AllFit ts → ∀ us, Takes (commaList close (typed (termWithin depth)))
          (commaTokens (ts.map TypedTerm.tokens) ++ close :: us) ts us := by
      intro close ts hclose hstart hlen hfits us
      rw [TypedTerm.allFit_iff] at hfits
      apply takes_commaList TypedTerm.tokens hclose
      · intro t _ vs
        exact head?_typedTerm_ne hstart
      · intro t ht vs _
        refine nested t ?_ (hfits t ht) vs
        have := length_le_commaTokens (List.mem_map_of_mem (f := TypedTerm.tokens) ht)
        omega
    intro t us hlen hfits
    cases t with
    | «local» s => cases s <;> exact takes_leaf rfl fun _ _ _ => rfl
    | global s => cases s <;> exact takes_leaf rfl fun _ _ _ => rfl
    | int v => exact takes_leaf rfl fun _ _ _ => rfl
    | bool b => cases b <;> exact takes_leaf rfl fun _ _ _ => rfl
    | float bits =>
      by_cases hsci : (Binary64.scientific? bits).isSome = true
      · exact takes_leaf (x := .decimal bits) (by simp [Term.tokens, floatToken, hsci])
          fun _ _ _ => rfl
      · exact takes_leaf (x := .hexBits bits) (by simp [Term.tokens, floatToken, hsci])
          fun _ _ _ => rfl
    | null | undef | zero => exact takes_leaf rfl fun _ _ _ => rfl
    | bytes data => exact takes_leaf rfl fun _ _ _ => rfl
    | array es =>
      simp only [Term.Fits] at hfits
      simp only [Term.tokens, TypedTerm.tokensAll_eq_map, List.length_cons,
        List.length_append] at hlen
      have hlist := list .rightBracket es (by simp) rfl (by omega) hfits us
      simp only [Term.tokens, TypedTerm.tokensAll_eq_map, List.cons_append, List.append_assoc,
        List.nil_append]
      refine (next_bind _).mpr ((takes_bind hlist).mpr ?_)
      exact takes_pure.mpr ⟨rfl, rfl⟩
    | struct fs =>
      simp only [Term.Fits] at hfits
      simp only [Term.tokens, TypedTerm.tokensAll_eq_map, List.length_cons,
        List.length_append] at hlen
      have hlist := list .rightBrace fs (by simp) rfl (by omega) hfits us
      simp only [Term.tokens, TypedTerm.tokensAll_eq_map, List.cons_append, List.append_assoc,
        List.nil_append]
      refine (next_bind _).mpr ((takes_bind hlist).mpr ?_)
      exact takes_pure.mpr ⟨rfl, rfl⟩
    | cast op v target =>
      simp only [Term.Fits] at hfits
      simp only [Term.tokens, List.length_cons, List.length_append] at hlen
      have hv := nested v (by omega) hfits.1
        (.keyword "to" :: (target.tokens ++ .rightParen :: us))
      have htarget := takes_type hfits.2 (endsType_cons rfl : EndsType (.rightParen :: us))
      simp only [Term.tokens, List.cons_append, List.append_assoc, List.nil_append]
      refine (next_bind _).mpr ?_
      change Takes (wordConstant (termWithin depth) op.name) _ _ _
      simp [wordConstant_cast, takes_bind hv, takes_bind htarget, -bind_pure_comp]
    | gep inbounds source base indices =>
      simp only [Term.Fits] at hfits
      obtain ⟨hsource, hbase, hindices⟩ := hfits
      rw [TypedTerm.allFit_iff] at hindices
      simp only [Term.tokens, commaTokens_eq, TypedTerm.tokensAll_eq_map, trailTokens_cons,
        List.length_cons, List.length_append] at hlen
      have hs := takes_type hsource (endsType_cons rfl : EndsType (.comma :: (base.tokens ++
        (trailTokens (indices.map TypedTerm.tokens) ++ .rightParen :: us))))
      have hb := nested base (by omega) hbase
        (trailTokens (indices.map TypedTerm.tokens) ++ .rightParen :: us)
      have hi : Takes (moreTyped (termWithin depth))
          (trailTokens (indices.map TypedTerm.tokens) ++ .rightParen :: us) indices
          (.rightParen :: us) := by
        apply takes_moreTyped (by simp)
        intro t ht vs
        have := length_le_trailTokens (List.mem_map_of_mem (f := TypedTerm.tokens) ht)
        exact nested t (by omega) (hindices t ht) vs
      simp only [Term.tokens, List.cons_append, List.append_assoc]
      refine (next_bind _).mpr ?_
      change Takes (wordConstant (termWithin depth) "getelementptr") _ _ _
      cases inbounds <;>
        simp [wordConstant, acceptWord, commaTokens_eq, trailTokens_cons,
          TypedTerm.tokensAll_eq_map, takes_bind hs, takes_bind hb, takes_bind hi, -bind_pure_comp]

/-- A term is read from its tokens, whatever follows. -/
theorem takes_term {t : Term} (hfits : t.Fits) :
    Takes term (t.tokens ++ us) t us := by
  apply takes_within
  apply takes_termWithin _ t us _ hfits
  simp only [List.length_append]
  omega

theorem takes_typedTerm {t : TypedTerm} (hfits : t.Fits) :
    Takes typedTerm (t.tokens ++ us) t us := by
  obtain ⟨ty, term⟩ := t
  have hterm := hfits
  simp only [TypedTerm.Fits] at hterm
  exact takes_typed hfits (takes_term hterm.2)

end QirProfile.Assembly
