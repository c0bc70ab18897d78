import Mathlib.Data.List.Basic
import QirProfile.Assembly.Cursor
import QirProfile.Proofs.Assembly.Spelling

/-!
# Readers on tokens

Lines do not matter to a reader that succeeds. `Takes r ts a us` says that the reader `r` turns the
tokens `ts` into the value `a` and leaves the tokens `us`, whatever lines they stand on, and that it
leaves any lines there. The second half makes a sequence exact: `takes_bind` is an equivalence, so
readers can be run by rewriting.

`Wp r P ts` is the version for results that hold a line: the reader succeeds on `ts`, and `P` holds
of the value and the tokens left.

Loops are run through `Loops` and `wp_loop`, lists through `takes_commaSeparated` and
`takes_commaList`.
-/

namespace QirProfile.Assembly

/-- The tokens left to read. -/
def Cursor.tokens (c : Cursor) : List Token :=
  c.rest.map (·.token)

namespace Reader

variable {α β σ : Type} {r : Reader α} {f : α → Reader β} {a : α} {b : β}
  {ts us vs : List Token} {t : Token}

/-! ## 1. Readers that succeed -/

/-- The reader turns the tokens into the value and leaves the others. -/
structure Takes (r : Reader α) (ts : List Token) (a : α) (us : List Token) : Prop where
  run : ∀ c : Cursor, c.tokens = ts → ∃ c' : Cursor, r c = .ok (a, c') ∧ c'.tokens = us
  back : ∀ c' : Cursor, c'.tokens = us → ∃ c : Cursor, c.tokens = ts ∧ r c = .ok (a, c')

/-- The reader succeeds on the tokens with a value and tokens left that satisfy `P`. -/
def Wp (r : Reader α) (P : α → List Token → Prop) (ts : List Token) : Prop :=
  ∀ c : Cursor, c.tokens = ts → ∃ a c', r c = .ok (a, c') ∧ P a c'.tokens

theorem bind_run {c c' : Cursor} (h : r c = .ok (a, c')) : (r >>= f) c = f a c' := by
  change (r c >>= fun x => f x.1 x.2) = _
  rw [h]
  rfl

/-- A sequence takes what its parts take. -/
theorem takes_bind (h : Takes r ts a us) : Takes (r >>= f) ts b vs ↔ Takes (f a) us b vs := by
  constructor
  · intro hb
    constructor
    · intro c hc
      obtain ⟨c₀, hc₀, hr⟩ := h.back c hc
      obtain ⟨c', hc', hvs⟩ := hb.run c₀ hc₀
      rw [bind_run hr] at hc'
      exact ⟨c', hc', hvs⟩
    · intro c' hc'
      obtain ⟨c₀, hc₀, hr⟩ := hb.back c' hc'
      obtain ⟨c, hc, hus⟩ := h.run c₀ hc₀
      rw [bind_run hc] at hr
      exact ⟨c, hus, hr⟩
  · intro hb
    constructor
    · intro c hc
      obtain ⟨c₁, hc₁, hus⟩ := h.run c hc
      obtain ⟨c', hc', hvs⟩ := hb.run c₁ hus
      exact ⟨c', by rw [bind_run hc₁, hc'], hvs⟩
    · intro c' hc'
      obtain ⟨c₁, hc₁, hf⟩ := hb.back c' hc'
      obtain ⟨c, hc, hr⟩ := h.back c₁ hc₁
      exact ⟨c, hc, by rw [bind_run hr, hf]⟩

theorem wp_bind {P : β → List Token → Prop} (h : Takes r ts a us) (hf : Wp (f a) P us) :
    Wp (r >>= f) P ts := by
  intro c hc
  obtain ⟨c₁, hc₁, hus⟩ := h.run c hc
  obtain ⟨b, c', hb, hp⟩ := hf c₁ hus
  exact ⟨b, c', by rw [bind_run hc₁, hb], hp⟩

theorem wp_bind' {P : β → List Token → Prop} (h : Wp r (fun a us => Wp (f a) P us) ts) :
    Wp (r >>= f) P ts := by
  intro c hc
  obtain ⟨a, c₁, ha, hf⟩ := h c hc
  obtain ⟨b, c', hb, hp⟩ := hf c₁ rfl
  exact ⟨b, c', by rw [bind_run ha, hb], hp⟩

theorem Takes.wp {P : α → List Token → Prop} (h : Takes r ts a us) (hp : P a us) : Wp r P ts := by
  intro c hc
  obtain ⟨c', hc', hus⟩ := h.run c hc
  exact ⟨a, c', hc', hus ▸ hp⟩

theorem takes_of_eq {a' : α} {us' : List Token} (h : Takes r ts a us) (ha : a = a')
    (hu : us = us') : Takes r ts a' us' := by
  subst ha
  subst hu
  exact h

@[simp] theorem takes_pure {a' : α} : Takes (pure a : Reader α) ts a' us ↔ a = a' ∧ ts = us := by
  constructor
  · intro h
    have htokens : (⟨ts.map fun t => ⟨t, 0⟩, 0⟩ : Cursor).tokens = ts := by
      simp [Cursor.tokens, Function.comp_def]
    obtain ⟨c', hc', hus⟩ := h.run _ htokens
    cases hc'
    exact ⟨rfl, htokens.symm.trans hus⟩
  · rintro ⟨rfl, rfl⟩
    exact ⟨fun c hc => ⟨c, rfl, hc⟩, fun c hc => ⟨c, hc, rfl⟩⟩

theorem wp_pure {P : α → List Token → Prop} (h : P a ts) : Wp (pure a : Reader α) P ts :=
  fun c hc => ⟨a, c, rfl, hc ▸ h⟩

/-! ## 2. Looking and taking -/

theorem tokens_cons {c : Cursor} (h : c.tokens = t :: ts) :
    ∃ line rest, c.rest = ⟨t, line⟩ :: rest ∧ rest.map (·.token) = ts := by
  obtain ⟨rest, line⟩ := c
  cases rest with
  | nil => cases h
  | cons x rest =>
    obtain ⟨t', l⟩ := x
    cases h
    exact ⟨l, rest, rfl, rfl⟩

theorem takes_look (h : ∀ c : Cursor, c.tokens = ts → r c = .ok (a, c)) : Takes r ts a ts :=
  ⟨fun c hc => ⟨c, h c hc, hc⟩, fun c hc => ⟨c, hc, h c hc⟩⟩

theorem takes_one (h : ∀ line rest l, r ⟨⟨t, line⟩ :: rest, l⟩ = .ok (a, ⟨rest, line⟩)) :
    Takes r (t :: ts) a ts := by
  constructor
  · rintro ⟨rest, l⟩ hc
    obtain ⟨line, rest', hrest, hts⟩ := tokens_cons hc
    cases hrest
    exact ⟨⟨rest', line⟩, h _ _ _, hts⟩
  · rintro ⟨rest, line⟩ hc
    exact ⟨⟨⟨t, line⟩ :: rest, 0⟩, by simpa [Cursor.tokens] using hc, h _ _ _⟩

theorem takes_peek : Takes peek ts ts.head? ts := by
  apply takes_look
  rintro ⟨rest, l⟩ rfl
  cases rest <;> rfl

theorem takes_peekSecond : Takes peekSecond ts ts[1]? ts := by
  apply takes_look
  rintro ⟨rest, l⟩ rfl
  match rest with
  | [] | [_] | _ :: _ :: _ => rfl

theorem takes_advance : Takes advance (t :: ts) () ts :=
  takes_one fun _ _ _ => rfl

theorem takes_next (context : String) : Takes (next context) (t :: ts) t ts :=
  takes_one fun _ _ _ => rfl

theorem takes_at? : Takes (at? t) ts (ts.head? == some t) ts := by
  simp only [at?]
  rw [takes_bind takes_peek]
  simp

theorem takes_accept :
    Takes (accept t) ts (ts.head? == some t) (if ts.head? = some t then ts.tail else ts) := by
  simp only [accept]
  rw [takes_bind takes_at?]
  by_cases h : ts.head? = some t
  · obtain ⟨us, rfl⟩ : ∃ us, ts = t :: us := by
      cases ts with
      | nil => cases h
      | cons x us => cases h; exact ⟨us, rfl⟩
    simp only [List.head?_cons, BEq.rfl, if_true, List.tail_cons]
    rw [takes_bind takes_advance]
    simp
  · simp [h]

theorem takes_expect : Takes (expect t) (t :: ts) () ts := by
  simp only [expect]
  rw [takes_bind (takes_next _)]
  simp

theorem takes_expectWord (word : String) : Takes (expectWord word) (.keyword word :: ts) () ts := by
  simp only [expectWord]
  rw [takes_bind (takes_next _)]
  simp [Token.isKeyword]

/-! ## 3. The same in front of a reader -/

section

variable {g : Option Token → Reader β} {h : Bool → Reader β} {k : Unit → Reader β}
  {n : Token → Reader β}

@[simp] theorem peek_bind : Takes (peek >>= g) ts b vs ↔ Takes (g ts.head?) ts b vs :=
  takes_bind takes_peek

@[simp] theorem peekSecond_bind : Takes (peekSecond >>= g) ts b vs ↔ Takes (g ts[1]?) ts b vs :=
  takes_bind takes_peekSecond

@[simp] theorem advance_bind : Takes (advance >>= k) (t :: ts) b vs ↔ Takes (k ()) ts b vs :=
  takes_bind takes_advance

@[simp] theorem next_bind (context : String) :
    Takes (next context >>= n) (t :: ts) b vs ↔ Takes (n t) ts b vs :=
  takes_bind (takes_next context)

theorem at?_bind : Takes (at? t >>= h) ts b vs ↔ Takes (h (ts.head? == some t)) ts b vs :=
  takes_bind takes_at?

@[simp] theorem at?_cons {x : Token} :
    Takes (at? t >>= h) (x :: ts) b vs ↔ Takes (h (x == t)) (x :: ts) b vs := by
  rw [at?_bind]
  simp

theorem at?_ne (hne : ts.head? ≠ some t) :
    Takes (at? t >>= h) ts b vs ↔ Takes (h false) ts b vs := by
  rw [at?_bind, beq_eq_false_iff_ne.mpr hne]

theorem accept_bind : Takes (accept t >>= h) ts b vs ↔
    Takes (h (ts.head? == some t)) (if ts.head? = some t then ts.tail else ts) b vs :=
  takes_bind takes_accept

@[simp] theorem accept_self : Takes (accept t >>= h) (t :: ts) b vs ↔ Takes (h true) ts b vs := by
  rw [accept_bind]
  simp

theorem accept_ne (hne : ts.head? ≠ some t) :
    Takes (accept t >>= h) ts b vs ↔ Takes (h false) ts b vs := by
  rw [accept_bind, if_neg hne, beq_eq_false_iff_ne.mpr hne]

@[simp] theorem accept_other {x : Token} (hne : x ≠ t) :
    Takes (accept t >>= h) (x :: ts) b vs ↔ Takes (h false) (x :: ts) b vs :=
  accept_ne (by simpa using hne)

@[simp] theorem expect_bind : Takes (expect t >>= k) (t :: ts) b vs ↔ Takes (k ()) ts b vs :=
  takes_bind takes_expect

@[simp] theorem expectWord_bind (word : String) :
    Takes (expectWord word >>= k) (.keyword word :: ts) b vs ↔ Takes (k ()) ts b vs :=
  takes_bind (takes_expectWord word)

end

/-! ## 4. Loops -/

/-- The steps turn the tokens into the value; every step before the last takes a token. -/
inductive Loops (step : σ → Reader (Step σ β)) : σ → List Token → β → List Token → Prop
  | done {s : σ} {ts us : List Token} {b : β} (h : Takes (step s) ts (.done b) us) :
    Loops step s ts b us
  | again {s s' : σ} {ts ts' us : List Token} {b : β} (h : Takes (step s) ts (.again s') ts')
    (hlt : ts'.length < ts.length) (hr : Loops step s' ts' b us) : Loops step s ts b us

variable {step : σ → Reader (Step σ β)} {s : σ}

theorem takes_repeatFuel (h : Loops step s ts b us) :
    ∀ fuel, ts.length < fuel → Takes (repeatFuel step fuel s) ts b us := by
  induction h with
  | done h =>
    intro fuel hlt
    cases fuel with
    | zero => omega
    | succ fuel =>
      simp only [repeatFuel]
      rw [takes_bind h]
      simp
  | again h hlt _ ih =>
    intro fuel hfuel
    cases fuel with
    | zero => omega
    | succ fuel =>
      simp only [repeatFuel]
      rw [takes_bind h]
      exact ih fuel (by omega)

theorem Loops.takes (h : Loops step s ts b us) : Takes (repeatStep step s) ts b us := by
  have hf := takes_repeatFuel h (ts.length + 1) (by omega)
  have hlen : ∀ c : Cursor, c.tokens = ts → c.rest.length = ts.length := by
    rintro c rfl
    simp [Cursor.tokens]
  have hrun : ∀ c : Cursor, c.tokens = ts →
      repeatStep step s c = repeatFuel step (ts.length + 1) s c := by
    intro c hc
    rw [← hlen c hc]
    rfl
  constructor
  · intro c hc
    rw [hrun c hc]
    exact hf.run c hc
  · intro c' hc'
    obtain ⟨c, hc, hr⟩ := hf.back c' hc'
    exact ⟨c, hc, by rw [hrun c hc, hr]⟩

/-- What a step of a loop with the invariant `I` must give. -/
def StepKeeps (I : σ → List Token → Prop) (P : β → List Token → Prop) (ts : List Token) :
    Step σ β → List Token → Prop
  | .again s, us => I s us ∧ us.length < ts.length
  | .done b, us => P b us

theorem wp_repeatFuel {I : σ → List Token → Prop} {P : β → List Token → Prop}
    (hstep : ∀ s ts, I s ts → Wp (step s) (StepKeeps I P ts) ts) (fuel : Nat) :
    ∀ s ts, I s ts → ts.length < fuel → Wp (repeatFuel step fuel s) P ts := by
  induction fuel with
  | zero =>
    intro s ts _ hlt
    omega
  | succ fuel ih =>
    intro s ts hI hlt
    simp only [repeatFuel]
    apply wp_bind'
    intro c hc
    obtain ⟨x, c', hx, hkeeps⟩ := hstep s ts hI c hc
    refine ⟨x, c', hx, ?_⟩
    cases x with
    | again s' => exact ih s' _ hkeeps.1 (by have := hkeeps.2; omega)
    | done b => exact wp_pure hkeeps

theorem wp_repeatStep {I : σ → List Token → Prop} {P : β → List Token → Prop}
    (hstep : ∀ s ts, I s ts → Wp (step s) (StepKeeps I P ts) ts) (h : I s ts) :
    Wp (repeatStep step s) P ts := by
  intro c hc
  have hlen : c.rest.length = ts.length := by
    rw [← hc]
    simp [Cursor.tokens]
  obtain ⟨b, c', hb, hp⟩ := wp_repeatFuel hstep (c.rest.length + 1) s ts h (by omega) c hc
  exact ⟨b, c', hb, hp⟩

/-! ## 5. Lists -/

theorem commaTokens_cons (x y : List Token) (xs : List (List Token)) :
    commaTokens (x :: y :: xs) = x ++ .comma :: commaTokens (y :: xs) := rfl

section

variable {item : Reader α} (toks : α → List Token)

theorem loops_comma {x : α} {items d : List α} (hus : us.head? ≠ some .comma)
    (h : ∀ y ∈ x :: items, ∀ vs, vs.head? = some .comma ∨ vs = us →
      Takes item (toks y ++ vs) y vs) :
    Loops (fun items => do
        let items := items ++ [← item]
        if ← accept .comma then return .again items else return .done items) d
      (commaTokens ((x :: items).map toks) ++ us) (d ++ x :: items) us := by
  induction items generalizing x d with
  | nil =>
    apply Loops.done
    simp only [List.map_cons, List.map_nil, commaTokens]
    rw [takes_bind (h x List.mem_cons_self us (.inr rfl)), accept_ne hus]
    simp
  | cons y items ih =>
    have htail := ih (d := d ++ [x]) fun z hz => h z (List.mem_cons_of_mem x hz)
    simp only [List.map_cons, commaTokens_cons, List.append_assoc, List.cons_append,
      List.nil_append] at htail ⊢
    refine .again ?_ ?_ htail
    · rw [takes_bind (h x List.mem_cons_self _ (.inl rfl))]
      simp
    · simp only [List.length_append, List.length_cons]
      omega

theorem takes_commaSeparated {items : List α} (hne : items ≠ []) (hus : us.head? ≠ some .comma)
    (h : ∀ x ∈ items, ∀ vs, vs.head? = some .comma ∨ vs = us → Takes item (toks x ++ vs) x vs) :
    Takes (commaSeparated item) (commaTokens (items.map toks) ++ us) items us := by
  cases items with
  | nil => exact absurd rfl hne
  | cons x items => exact (loops_comma toks (d := []) hus h).takes

theorem takes_commaList {close : Token} {items : List α} (hclose : close ≠ .comma)
    (hhead : ∀ x ∈ items, ∀ vs, (toks x ++ vs).head? ≠ some close)
    (h : ∀ x ∈ items, ∀ vs, vs.head? = some .comma ∨ vs.head? = some close →
      Takes item (toks x ++ vs) x vs) :
    Takes (commaList close item) (commaTokens (items.map toks) ++ close :: us) items us := by
  simp only [commaList]
  cases items with
  | nil => simp [commaTokens]
  | cons x items =>
    have hne : (commaTokens ((x :: items).map toks) ++ close :: us).head? ≠ some close := by
      cases items with
      | nil => exact hhead x List.mem_cons_self _
      | cons y items =>
        simp only [List.map_cons, commaTokens_cons, List.append_assoc]
        exact hhead x List.mem_cons_self _
    have hitems : Takes (commaSeparated item)
        (commaTokens ((x :: items).map toks) ++ close :: us) (x :: items) (close :: us) := by
      apply takes_commaSeparated toks (List.cons_ne_nil x items)
      · simpa using hclose
      · intro y hy vs hvs
        apply h y hy vs
        rcases hvs with hvs | rfl
        · exact .inl hvs
        · exact .inr rfl
    rw [accept_ne hne]
    simp only [Bool.false_eq_true, if_false]
    rw [takes_bind hitems, expect_bind]
    simp

end

end Reader

end QirProfile.Assembly
