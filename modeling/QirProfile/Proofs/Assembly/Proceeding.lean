import QirProfile.Proofs.Assembly.ReadingUnits
import QirProfile.Proofs.Assembly.Scanning
import QirProfile.Proofs.Steps

/-!
# Readers go forward

A reader takes tokens from the head of what is left, it is refused for a reason that it can report, and
what it answers can be written again. `Proceeds φ A n k P r` says so of the reader `r` in front of less
than `n` tokens, the first of which `A` allows: it takes at least `k a` tokens to answer `a`, and `a`
satisfies `P` if `φ` holds. For that, `φ` must promise that the tokens fit: no integer type among them
is too wide. The bound `n` is what a depth of nesting needs: a depth of more than the tokens left is
never used up. Loops end for the same reason, since a step that asks for another one has taken a token.
-/

namespace QirProfile.Assembly

open Text

variable {c c'' : Cursor} {e : ReadError} {t u : Ty} {word : String}

/-! ## 1. Refusals -/

/-- A refusal that says what is wrong with the text: the reader did not run out of steps, and no edit
    was refused. -/
inductive ReadError.IsRefusal : ReadError → Prop
  | invalidToken (line : Nat) (text : String) : IsRefusal (.invalidToken line text)
  | unexpectedToken (line : Nat) (expected found : String) :
    IsRefusal (.unexpectedToken line expected found)
  | unexpectedEnd {context : String} (h : context ≠ "") : IsRefusal (.unexpectedEnd context)
  | undefinedSymbol (name scope : String) : IsRefusal (.undefinedSymbol name scope)
  | duplicateDefinition (name : String) : IsRefusal (.duplicateDefinition name)
  | unknownInstruction (opcode : String) (line : Nat) : IsRefusal (.unknownInstruction opcode line)
  | integerOutOfRange (line : Nat) (literal : Int) : IsRefusal (.integerOutOfRange line literal)

/-! ## 2. Tokens that fit -/

section

variable {α : Type} {P : α → Prop} {a : α}

/-- Every item of a list satisfies `P`. -/
def Every (P : α → Prop) (items : List α) : Prop := ∀ x ∈ items, P x

theorem every_nil : Every P [] := fun _ h => absurd h List.not_mem_nil

theorem Every.concat {items : List α} (h : Every P items) (ha : P a) : Every P (items ++ [a]) := by
  intro x hx
  rcases List.mem_append.mp hx with hx | hx
  · exact h x hx
  · rwa [List.mem_singleton.mp hx]

end

/-- An integer type has a width of 32 bits. -/
def Token.Fits : Token → Prop
  | intType bits => bits < span 32
  | _ => True

/-- Every token left fits. -/
def Cursor.Fits (c : Cursor) : Prop := ∀ x ∈ c.rest, x.token.Fits

/-- The next token. -/
def nextToken (xs : List Lexeme) : Option Token :=
  xs.head?.map (·.token)

/-- Less than `n` tokens are left, `A` allows the next one, and they fit if `φ` holds. -/
structure Cursor.Meets (φ : Prop) (A : Option Token → Prop) (n : Nat) (c : Cursor) : Prop where
  fits : φ → c.Fits
  next : A (nextToken c.rest)
  short : c.rest.length < n

namespace Reader

open ReadError (IsRefusal)

variable {α β σ : Type} {φ : Prop} {A B : Option Token → Prop} {m n : Nat} {r : Reader α}
  {f : α → Reader β} {k : α → Nat} {l : β → Nat} {P Q : α → Prop} {R : β → Prop}

/-! ## 3. Readers that proceed -/

theorem bind_ok {b : β} :
    (r >>= f) c = .ok (b, c'') ↔ ∃ a c', r c = .ok (a, c') ∧ f a c' = .ok (b, c'') := by
  change ((r c >>= fun x => f x.1 x.2) = _) ↔ _
  rw [except_bind_ok]
  simp

/-- Any token comes next, or none. -/
abbrev Anything : Option Token → Prop := fun _ => True

/-- A token comes next. -/
abbrev Ahead : Option Token → Prop := (· ≠ none)

/-- Another token comes next, or none. -/
abbrev Off (t : Token) : Option Token → Prop := (· ≠ some t)

/-- In front of such tokens the reader takes `k a` of them or more to answer `a`, which satisfies `P`
    if `φ` holds, and it is refused for a reason that it reports. -/
structure Proceeds (φ : Prop) (A : Option Token → Prop) (n : Nat) (k : α → Nat) (P : α → Prop)
    (r : Reader α) : Prop where
  took : ∀ c a c', c.Meets φ A n → r c = .ok (a, c') →
    c'.rest <:+ c.rest ∧ c'.rest.length + k a ≤ c.rest.length ∧ (φ → P a)
  refused : ∀ c e, c.Meets φ A n → r c = .error e → e.IsRefusal

/-- The reader goes forward, if at all. -/
abbrev Goes (n : Nat) (r : Reader α) (P : α → Prop := fun _ => True) (φ : Prop := False) : Prop :=
  Proceeds φ Anything n (fun _ => 0) P r

/-- The reader takes at least one token. -/
abbrev Consumes (n : Nat) (r : Reader α) (P : α → Prop := fun _ => True) (φ : Prop := False) : Prop :=
  Proceeds φ Anything n (fun _ => 1) P r

/-- How many tokens a step must take. -/
def Step.taken : Step σ β → Nat
  | .again _ => 1
  | .done _ => 0

/-- What a step of a loop with the invariant `I` must give. -/
def Step.Keeps {σ β : Type} (I : σ → Prop) (R : β → Prop) : Step σ β → Prop
  | again s => I s
  | done b => R b

/-- The step takes a token before it asks for another one. -/
abbrev Steps (n : Nat) (r : Reader (Step σ β)) (P : Step σ β → Prop := fun _ => True)
    (φ : Prop := False) : Prop :=
  Proceeds φ Anything n Step.taken P r

/-- At most one token must be taken. -/
class AtMostOne (l : β → Nat) : Prop where
  le : ∀ b, l b ≤ 1

instance : AtMostOne (fun _ : β => 0) := ⟨fun _ => Nat.zero_le 1⟩
instance : AtMostOne (fun _ : β => 1) := ⟨fun _ => Nat.le_refl 1⟩
instance : AtMostOne (Step.taken : Step σ β → Nat) where
  le
    | .again _ => Nat.le_refl 1
    | .done _ => Nat.zero_le 1

section

variable {c c' : Cursor} {a : α} (h : Proceeds False Anything n k P r)
include h

theorem Proceeds.run (hn : c.rest.length < n) (hrun : r c = .ok (a, c')) :
    c'.rest <:+ c.rest ∧ c'.rest.length + k a ≤ c.rest.length := by
  obtain ⟨hsuffix, hlength, -⟩ := h.took c a c' ⟨False.elim, trivial, hn⟩ hrun
  exact ⟨hsuffix, hlength⟩

theorem Proceeds.refusal (hn : c.rest.length < n) (hrun : r c = .error e) :
    e.IsRefusal := h.refused c e ⟨False.elim, trivial, hn⟩ hrun

end

theorem Proceeds.mono {k' : α → Nat} (h : Proceeds φ A n k P r) (hA : ∀ t, B t → A t) (hm : m ≤ n)
    (hk : ∀ a, k' a ≤ k a) (hP : ∀ a, φ → P a → Q a) : Proceeds φ B m k' Q r where
  took c a c' hc hrun := by
    obtain ⟨hsuffix, hlength, hp⟩ :=
      h.took c a c' ⟨hc.fits, hA _ hc.next, hc.short.trans_le hm⟩ hrun
    exact ⟨hsuffix, (Nat.add_le_add_left (hk a) _).trans hlength, fun hφ => hP a hφ (hp hφ)⟩
  refused c e hc := h.refused c e ⟨hc.fits, hA _ hc.next, hc.short.trans_le hm⟩

theorem Proceeds.within (h : Proceeds φ A n k P r) (hm : m ≤ n) : Proceeds φ A m k P r :=
  h.mono (fun _ => id) hm (fun _ => Nat.le_refl _) fun _ _ => id

theorem Proceeds.ahead (h : Proceeds φ Anything n k P r) : Proceeds φ A n k P r :=
  h.mono (fun _ _ => trivial) (Nat.le_refl n) (fun _ => Nat.le_refl _) fun _ _ => id

theorem Proceeds.post (h : Proceeds φ A n k P r) (hP : ∀ a, φ → P a → Q a) : Proceeds φ A n k Q r :=
  h.mono (fun _ => id) (Nat.le_refl n) (fun _ => Nat.le_refl _) hP

theorem Proceeds.moves (h : Proceeds φ A n k P r) : Proceeds φ A n (fun _ => 0) P r :=
  h.mono (fun _ => id) (Nat.le_refl n) (fun _ => Nat.zero_le _) fun _ _ => id

theorem Proceeds.free (h : Proceeds False A n k Q r) : Proceeds φ A n k (fun _ => True) r where
  took c a c' hc hrun := by
    obtain ⟨hsuffix, hlength, -⟩ := h.took c a c' ⟨False.elim, hc.next, hc.short⟩ hrun
    exact ⟨hsuffix, hlength, fun _ => trivial⟩
  refused c e hc := h.refused c e ⟨False.elim, hc.next, hc.short⟩

theorem Proceeds.goes (h : Proceeds False A n k P r) : Proceeds False A n (fun _ => 0) (fun _ => True) r :=
  h.free.moves

theorem proceeds_zero : Proceeds φ A 0 k P r where
  took _ _ _ hc := absurd hc.short (Nat.not_lt_zero _)
  refused _ _ hc := absurd hc.short (Nat.not_lt_zero _)

theorem proceeds_chain (h : Proceeds φ A n k Q r)
    (hf : ∀ a, (φ → Q a) → Proceeds φ Anything (n - k a) (fun b => l b - k a) R (f a)) :
    Proceeds φ A n l R (r >>= f) := by
  have hmeets : ∀ {c c' : Cursor} {a : α}, c.Meets φ A n → c'.rest <:+ c.rest →
      c'.rest.length + k a ≤ c.rest.length → c'.Meets φ Anything (n - k a) :=
    fun hc hsuffix hlength => ⟨fun hφ x hx => hc.fits hφ x (hsuffix.subset hx), trivial, by
      have := hc.short
      omega⟩
  constructor
  · intro c b c'' hc hrun
    obtain ⟨a, c', ha, hb⟩ := bind_ok.mp hrun
    obtain ⟨hsuffix, hlength, hq⟩ := h.took c a c' hc ha
    obtain ⟨hsuffix', hlength', hr⟩ := (hf a hq).took c' b c'' (hmeets hc hsuffix hlength) hb
    exact ⟨hsuffix'.trans hsuffix, by omega, hr⟩
  · intro c e hc hrun
    rcases except_bind_error.mp hrun with he | ⟨⟨a, c'⟩, ha, hb⟩
    · exact h.refused c e hc he
    · obtain ⟨hsuffix, hlength, hq⟩ := h.took c a c' hc ha
      exact (hf a hq).refused c' e (hmeets hc hsuffix hlength) hb

theorem proceeds_bind (h : Proceeds φ A n k Q r)
    (hf : ∀ a, (φ → Q a) → Proceeds φ Anything n l R (f a)) : Proceeds φ A n l R (r >>= f) :=
  proceeds_chain h.moves hf

theorem proceeds_seq (h : Proceeds False A n k Q r) (hf : ∀ a, Proceeds φ Anything n l R (f a)) :
    Proceeds φ A n l R (r >>= f) :=
  proceeds_bind h.free fun a _ => hf a

theorem proceeds_taken [hl : AtMostOne l] (h : Proceeds φ A n (fun _ => 1) Q r)
    (hf : ∀ a, (φ → Q a) → Goes (n - 1) (f a) R φ) : Proceeds φ A n l R (r >>= f) :=
  proceeds_chain h fun a ha => (hf a ha).mono (fun _ => id) (Nat.le_refl _)
    (fun b => by rw [Nat.sub_eq_zero_of_le (hl.le b)]) fun _ _ => id

theorem consumes_bind [AtMostOne l] (h : Proceeds φ A n (fun _ => 1) Q r)
    (hf : ∀ a, (φ → Q a) → Goes n (f a) R φ) : Proceeds φ A n l R (r >>= f) :=
  proceeds_taken h fun a ha => (hf a ha).within (Nat.sub_le n 1)

theorem consumes_seq [AtMostOne l] (h : Proceeds False A n (fun _ => 1) Q r)
    (hf : ∀ a, Goes n (f a) R φ) : Proceeds φ A n l R (r >>= f) :=
  consumes_bind h.free fun a _ => hf a

theorem proceeds_pure {a : α} (hk : k a = 0) (h : φ → P a) : Proceeds φ A n k P (pure a) where
  took c b c' _ hrun := by
    cases hrun
    exact ⟨List.suffix_rfl, by rw [hk, Nat.add_zero], h⟩
  refused c e _ hrun := by cases hrun

theorem goes_pure (a : α) (h : φ → P a) : Proceeds φ A n (fun _ => 0) P (pure a) := proceeds_pure rfl h

theorem goes_return (a : α) : Proceeds φ A n (fun _ => 0) (fun _ => True) (pure a) :=
  goes_pure a fun _ => trivial

theorem steps_done {P : Step σ β → Prop} (b : β) (h : φ → P (.done b)) :
    Proceeds φ A n Step.taken P (pure (.done b)) := proceeds_pure rfl h

theorem steps_end (b : β) :
    Proceeds φ A n Step.taken (fun _ => True) (pure (.done b : Step σ β)) :=
  steps_done b fun _ => trivial

theorem proceeds_pure_bind {a : α} (h : Proceeds φ A n l R (f a)) :
    Proceeds φ A n l R (pure a >>= f) := by
  rwa [pure_bind]

theorem goes_map {g : α → β} (h : Goes n r (fun a => R (g a)) φ) : Goes n (g <$> r) R φ := by
  rw [map_eq_pure_bind]
  exact proceeds_bind h fun a ha => goes_pure _ ha

theorem proceeds_refused (h : ∀ c, ∃ e, r c = .error e ∧ e.IsRefusal) : Proceeds φ A n k P r where
  took c a c' _ hrun := by
    obtain ⟨e, he, -⟩ := h c
    cases he.symm.trans hrun
  refused c e _ hrun := by
    obtain ⟨e', he, hrefusal⟩ := h c
    cases he.symm.trans hrun
    exact hrefusal

theorem proceeds_throw (h : e.IsRefusal) :
    Proceeds φ A n k P (throw e : Reader α) := proceeds_refused fun _ => ⟨e, rfl, h⟩

theorem proceeds_unexpected (expected : String) (found : Token) :
    Proceeds φ A n k P (unexpected expected found : Reader α) :=
  proceeds_refused fun _ => ⟨_, rfl, .unexpectedToken _ _ _⟩

theorem proceeds_outOfRange (v : Int) : Proceeds φ A n k P
    (do throw (.integerOutOfRange (← get).line v) : Reader α) :=
  proceeds_refused fun _ => ⟨_, rfl, .integerOutOfRange _ _⟩

theorem proceeds_unless {refused : Bool} {expected : String} {found : Token} {f : Unit → Reader β}
    (hf : Proceeds φ A n l R (f ())) :
    Proceeds φ A n l R (if refused then unexpected expected found >>= f else f ()) := by
  split
  · exact proceeds_refused fun _ => ⟨_, rfl, .unexpectedToken _ _ _⟩
  · exact hf

/-! ## 4. Looking and taking -/

theorem goes_get : Goes n (get : Reader Cursor) where
  took c a c' _ hrun := by
    cases hrun
    exact ⟨List.suffix_rfl, Nat.le_refl _, fun _ => trivial⟩
  refused c e _ hrun := by cases hrun

theorem proceeds_look {ε : Type} {look : Reader ε} {v : Option Token → ε} {f : ε → Reader β}
    (hlook : ∀ c, look c = .ok (v (nextToken c.rest), c))
    (h : ∀ t, A t → Proceeds φ (· = t) n l R (f (v t))) : Proceeds φ A n l R (look >>= f) where
  took c b c' hc hrun := by
    rw [bind_run (hlook c)] at hrun
    exact (h _ hc.next).took c b c' ⟨hc.fits, rfl, hc.short⟩ hrun
  refused c e hc hrun := by
    rw [bind_run (hlook c)] at hrun
    exact (h _ hc.next).refused c e ⟨hc.fits, rfl, hc.short⟩ hrun

theorem Proceeds.at {t : Option Token} (h : Proceeds φ A n k P r) (ht : A t) :
    Proceeds φ (· = t) n k P r :=
  h.mono (fun _ hu => hu ▸ ht) (Nat.le_refl n) (fun _ => Nat.le_refl _) fun _ _ => id

theorem proceeds_peek_bind {g : Option Token → Reader β}
    (hnone : Proceeds φ Anything n l R (g none))
    (hsome : ∀ t, Proceeds φ Ahead n l R (g (some t))) : Proceeds φ A n l R (peek >>= g) := by
  refine proceeds_look (v := id) (fun _ => rfl) fun t _ => ?_
  cases t with
  | none => exact hnone.ahead
  | some t => exact (hsome t).at (Option.some_ne_none t)

theorem at?_run (t : Token) (c : Cursor) : at? t c = .ok (nextToken c.rest == some t, c) := rfl

theorem proceeds_at?_bind {t : Token} {g : Bool → Reader β} (htrue : Proceeds φ Ahead n l R (g true))
    (hfalse : Proceeds φ (Off t) n l R (g false)) : Proceeds φ A n l R (at? t >>= g) := by
  refine proceeds_look (v := (· == some t)) (at?_run t) fun u _ => ?_
  by_cases h : u = some t
  · rw [beq_iff_eq.mpr h]
    exact htrue.at (h ▸ Option.some_ne_none t)
  · rw [beq_false_of_ne h]
    exact hfalse.at h

theorem goes_peek : Goes n peek := proceeds_seq goes_get fun _ => goes_return _

theorem goes_peekSecond : Goes n peekSecond := proceeds_seq goes_get fun _ => goes_return _

theorem goes_at? (t : Token) : Goes n (at? t) := proceeds_seq goes_peek fun _ => goes_return _

theorem ahead_advance : Proceeds φ Ahead n (fun _ => 1) (fun _ => True) advance where
  took := by
    rintro ⟨_ | ⟨x, rest⟩, line⟩ a c' hc hrun
    · exact absurd rfl hc.next
    · cases hrun
      exact ⟨List.suffix_cons x rest, Nat.le_refl _, fun _ => trivial⟩
  refused := by
    rintro ⟨_ | ⟨x, rest⟩, line⟩ e - hrun <;> cases hrun

theorem goes_advance : Goes n advance where
  took := by
    rintro ⟨_ | ⟨x, rest⟩, line⟩ a c' - hrun <;> cases hrun
    · exact ⟨List.suffix_rfl, Nat.le_refl _, fun _ => trivial⟩
    · exact ⟨List.suffix_cons x rest, Nat.le_succ _, fun _ => trivial⟩
  refused := by
    rintro ⟨_ | ⟨x, rest⟩, line⟩ e - hrun <;> cases hrun

theorem proceeds_next {context : String} (h : context ≠ "") :
    Proceeds φ A n (fun _ => 1) (fun t => t.Fits ∧ A (some t)) (next context) where
  took := by
    rintro ⟨_ | ⟨x, rest⟩, line⟩ a c' hc hrun <;> cases hrun
    exact ⟨List.suffix_cons x rest, Nat.le_refl _, fun hφ =>
      ⟨hc.fits hφ x List.mem_cons_self, hc.next⟩⟩
  refused := by
    rintro ⟨_ | ⟨x, rest⟩, line⟩ e - hrun <;> cases hrun
    exact .unexpectedEnd h

theorem consumes_next {context : String} (h : context ≠ "") : Consumes n (next context) :=
  (proceeds_next h).free

theorem steps_advance [AtMostOne l] {f : Unit → Reader β} (hf : Goes n (f ()) R φ) :
    Proceeds φ Ahead n l R (advance >>= f) :=
  consumes_bind ahead_advance fun _ _ => hf

theorem proceeds_accept [AtMostOne l] {t : Token} {g : Bool → Reader β}
    (htrue : Goes n (g true) R φ) (hfalse : Proceeds φ (Off t) n l R (g false)) :
    Proceeds φ A n l R (accept t >>= g) := by
  rw [accept, bind_assoc]
  refine proceeds_at?_bind ?_ hfalse
  change Proceeds φ Ahead n l R ((advance >>= fun _ => pure true) >>= g)
  rw [bind_assoc]
  exact steps_advance htrue

theorem goes_accept (t : Token) : Goes n (accept t) := by
  refine proceeds_seq (goes_at? t) fun here => ?_
  cases here
  · exact goes_return false
  · exact proceeds_seq goes_advance fun _ => goes_return true

theorem consumes_expect (t : Token) : Consumes n (expect t) := by
  refine consumes_seq (consumes_next (by simp)) fun found => ?_
  split
  · exact proceeds_unexpected _ _
  · exact goes_return _

theorem consumes_expectWord (word : String) : Consumes n (expectWord word) := by
  refine consumes_seq (consumes_next (by simp)) fun found => ?_
  split
  · exact proceeds_unexpected _ _
  · exact goes_return _

/-! ## 5. Repetition -/

theorem proceeds_measured {within : Nat → Reader α}
    (h : ∀ depth, Proceeds φ A (min n depth) k P (within depth)) :
    Proceeds φ A n k P (do within ((← get).rest.length + 1)) where
  took c a c' hc hrun := (h (c.rest.length + 1)).took c a c'
    ⟨hc.fits, hc.next, Nat.lt_min.mpr ⟨hc.short, Nat.lt_succ_self _⟩⟩ hrun
  refused c e hc hrun := (h (c.rest.length + 1)).refused c e
    ⟨hc.fits, hc.next, Nat.lt_min.mpr ⟨hc.short, Nat.lt_succ_self _⟩⟩ hrun

theorem goes_repeatFuel {I : σ → Prop} {step : σ → Reader (Step σ β)}
    (hstep : ∀ s, (φ → I s) → Steps n (step s) (Step.Keeps I R) φ) (fuel : Nat) :
    ∀ s, (φ → I s) → Goes (min n fuel) (repeatFuel step fuel s) R φ := by
  induction fuel with
  | zero =>
    rw [Nat.min_zero]
    exact fun _ _ => proceeds_zero
  | succ fuel ih =>
    intro s hs
    refine proceeds_chain ((hstep s hs).within (Nat.min_le_left _ _)) fun x hx => ?_
    cases x with
    | again s' => exact ((ih s' hx).within (by simp only [Step.taken]; omega)).moves
    | done b => exact (goes_pure b hx).moves

theorem proceeds_repeatStep {step : σ → Reader (Step σ β)} {s : σ} (I : σ → Prop)
    (hstep : ∀ s, (φ → I s) → Steps n (step s) (Step.Keeps I R) φ) (hs : φ → I s) :
    Goes n (repeatStep step s) R φ :=
  proceeds_measured fun fuel => goes_repeatFuel hstep fuel s hs

theorem goes_repeatStep {step : σ → Reader (Step σ β)} {s : σ} (hstep : ∀ s, Steps n (step s)) :
    Goes n (repeatStep step s) :=
  proceeds_repeatStep (fun _ => True)
    (fun s _ => (hstep s).post fun x _ _ => by cases x <;> trivial) fun _ => trivial

theorem consumes_nested {body : Reader α → Reader α} {within : Nat → Reader α}
    (hbody : ∀ {n r}, Goes n r P φ → Consumes (n + 1) (body r) P φ)
    (hwithin : ∀ depth, within (depth + 1) = body (within depth)) (depth : Nat) :
    Consumes depth (within depth) P φ := by
  induction depth with
  | zero => exact proceeds_zero
  | succ depth ih =>
    rw [hwithin]
    exact hbody ih.moves

/-- The step of the loop over items between commas. -/
def itemStep (item : Reader α) (items : List α) : Reader (Step (List α) (List α)) := do
  let items := items ++ [← item]
  if ← accept .comma then return .again items else return .done items

theorem steps_itemStep {item : Reader α} (h : Goes n item P φ) {items : List α}
    (hitems : φ → Every P items) :
    Steps n (itemStep item items) (Step.Keeps (Every P) (Every P)) φ :=
  proceeds_bind h fun _ hx =>
    have hmore hφ := (hitems hφ).concat (hx hφ)
    proceeds_accept (goes_pure _ hmore) (steps_done _ hmore)

theorem goes_commaSeparated {item : Reader α} (h : Goes n item P φ) :
    Goes n (commaSeparated item) (Every P) φ :=
  proceeds_repeatStep (Every P) (fun _ hitems => steps_itemStep h hitems) fun _ => every_nil

theorem goes_commaList {item : Reader α} (close : Token) (h : Goes n item P φ) :
    Goes n (commaList close item) (Every P) φ := by
  refine proceeds_seq (goes_accept _) fun closed => ?_
  split
  · exact goes_pure _ fun _ => every_nil
  · exact proceeds_bind (goes_commaSeparated h) fun _ hitems =>
      proceeds_seq (consumes_expect _) fun _ => goes_pure _ hitems

/-! ## 6. Literals and groups -/

theorem consumes_number32 : Consumes n number32 (· < span 32) φ := by
  refine consumes_seq (consumes_next (by decide)) fun found => ?_
  cases found with
  | integer v =>
    dsimp only
    split
    · rename_i hv
      exact goes_pure _ fun _ => by omega
    · exact proceeds_outOfRange _
  | _ => exact proceeds_unexpected _ _

theorem consumes_string : Consumes n string := by
  refine consumes_seq (consumes_next (by decide)) fun found => ?_
  cases found with
  | string s => exact goes_return _
  | _ => exact proceeds_unexpected _ _

/-- The step of the loop over a group in brackets. -/
def skipStep (depth : Nat) : Reader (Step Nat Unit) := do
  let depth := depthAfter depth (← next "unterminated group")
  if depth = 0 then return .done () else return .again depth

theorem steps_skipStep (depth : Nat) : Steps n (skipStep depth) := by
  refine consumes_seq (consumes_next (by decide)) fun found => ?_
  dsimp only
  split
  · exact goes_return _
  · exact goes_return _

theorem goes_skipGroup : Goes n skipGroup := goes_repeatStep steps_skipStep

theorem goes_skipParens : Goes n skipParens := by
  refine proceeds_seq (goes_at? _) fun here => ?_
  split
  · exact goes_skipGroup
  · exact goes_return _

theorem consumes_skipMetadata : Consumes n skipMetadata := by
  refine proceeds_seq (goes_accept _) fun _ =>
    consumes_seq (consumes_next (by decide)) fun found => ?_
  cases found with
  | metadataId => exact goes_return _
  | metadataName => exact goes_skipParens
  | exclaim =>
    refine proceeds_seq goes_peek fun t => ?_
    split
    · exact goes_skipGroup
    · exact goes_advance
    · exact goes_return _
  | _ => exact proceeds_unexpected _ _

theorem consumes_localSymbol : Consumes n localSymbol := by
  refine consumes_seq (consumes_next (by decide)) fun found => ?_
  cases found with
  | localName | localId => exact goes_return _
  | _ => exact proceeds_unexpected _ _

theorem consumes_globalSymbol : Consumes n globalSymbol := by
  refine consumes_seq (consumes_next (by decide)) fun found => ?_
  cases found with
  | globalName | globalId => exact goes_return _
  | _ => exact proceeds_unexpected _ _

theorem consumes_label : Consumes n label :=
  consumes_seq (consumes_expectWord _) fun _ => consumes_localSymbol.goes

/-! ## 7. Types -/

/-- The step of the loop over parameter attributes. -/
def paramAttributeStep (_ : Unit) : Reader (Step Unit Unit) := do
  match ← peek with
  | some (.keyword word) =>
    if isValueWord word || isTypeWord word then return .done ()
    advance
    match word == "align", ← peek with
    | true, some (.integer _) => advance
    | _, _ => skipParens
    return .again ()
  | _ => return .done ()

theorem steps_paramAttributeStep (u : Unit) : Steps n (paramAttributeStep u) := by
  refine proceeds_peek_bind (steps_end _) fun t => ?_
  split
  · split
    · exact steps_end _
    · refine steps_advance (proceeds_seq goes_peek fun t => ?_)
      split
      · exact proceeds_seq goes_advance fun _ => goes_return _
      · exact proceeds_seq goes_skipParens fun _ => goes_return _
  · exact steps_end _

theorem goes_skipParamAttributes : Goes n skipParamAttributes :=
  goes_repeatStep steps_paramAttributeStep

theorem consumes_arrayLength : Consumes n arrayLength (· < span 64) φ := by
  refine consumes_seq (consumes_next (by decide)) fun found => ?_
  cases found with
  | integer v =>
    dsimp only
    split
    · rename_i hv
      exact goes_pure _ fun _ => by omega
    · exact proceeds_outOfRange _
  | _ => exact proceeds_unexpected _ _

/-- The step of the loop over the parameters of a function type. -/
def paramTypeStep (ty : Reader Ty) :
    List Ty × Bool → Reader (Step (List Ty × Bool) (List Ty × Bool)) := fun (params, varArg) => do
  if ← accept .rightParen then return .done (params, varArg)
  let (params, varArg) ←
    if ← accept .ellipsis then pure (params, true)
    else do
      let t ← ty
      skipParamAttributes
      pure (params ++ [t], varArg)
  if ← accept .comma then return .again (params, varArg)
  expect .rightParen
  return .done (params, varArg)

/-- The step of the loop over the suffixes of a type. -/
def suffixStep (ty : Reader Ty) (t : Ty) : Reader (Step Ty Ty) := do
  if ← accept .star then return .again (.ptr t)
  if ← acceptWord "addrspace" then
    skipGroup
    return .again t
  if ← accept .leftParen then
    let (params, varArg) ← paramTypes ty
    return .again (.func t params varArg)
  return .done t

/-- A type, if those inside it are read like this. -/
def typeBody (ty : Reader Ty) : Reader Ty := do
  let head ← typeHead ty
  typeSuffixes ty head

/-- If the type starts with `void` or `label`, that word may come next. -/
def LeadsIn (A : Option Token → Prop) (t : Ty) : Prop :=
  ∀ word, t.lead = .void ∨ t.lead = .label → typeOfWord? word = some t.lead → A (some (.keyword word))

theorem leadsIn_of_ne (hvoid : t.lead ≠ .void) (hlabel : t.lead ≠ .label) : LeadsIn A t :=
  fun _ h => absurd h (not_or.mpr ⟨hvoid, hlabel⟩)

theorem LeadsIn.of_lead (h : LeadsIn A t) (hu : u.lead = t.lead) : LeadsIn A u := by
  rw [LeadsIn, hu]
  exact h

theorem LeadsIn.ne (h : LeadsIn (Off (.keyword word)) t)
    (hu : u = .void ∨ u = .label) (hword : typeOfWord? word = some u) : t.lead ≠ u := by
  rintro rfl
  exact h word hu hword rfl

theorem typeOfWord?_fits (h : typeOfWord? word = some t) : t.Fits := by
  unfold typeOfWord? at h
  split at h <;> cases h
  all_goals first | trivial | simp [Ty.Fits, span]

theorem leadsIn_word (ht : typeOfWord? word = some t)
    (h : A (some (.keyword word))) : LeadsIn A t := by
  intro word' hlead hword
  obtain rfl : word' = word := by
    unfold typeOfWord? at ht hword
    split at ht <;> cases ht <;> rcases hlead with hlead | hlead <;> first
      | (cases hlead; done)
      | (split at hword <;> cases hword; rfl)
  exact h

section

variable {ty : Reader Ty} (hty : Goes n ty Ty.Fits φ)
include hty

theorem steps_paramTypeStep {x : List Ty × Bool} (hx : φ → Ty.AllFit x.1) :
    Steps n (paramTypeStep ty x)
      (Step.Keeps (fun x => Ty.AllFit x.1) fun x => Ty.AllFit x.1) φ := by
  refine proceeds_seq (goes_accept _) fun closed => ?_
  split
  · exact steps_done _ hx
  · refine proceeds_seq (goes_accept _) fun dots => ?_
    extract_lets rest
    have hrest : ∀ y : List Ty × Bool, (φ → Ty.AllFit y.1) → Steps n (rest y)
        (Step.Keeps (fun x => Ty.AllFit x.1) fun x => Ty.AllFit x.1) φ := fun y hy =>
      proceeds_accept (goes_pure _ hy)
        (proceeds_seq (consumes_expect _).ahead fun _ => steps_done _ hy)
    split
    · exact proceeds_pure_bind (hrest (x.1, true) hx)
    · exact proceeds_bind hty fun t ht => proceeds_seq goes_skipParamAttributes fun _ =>
        proceeds_pure_bind (hrest (x.1 ++ [t], x.2) fun hφ => Ty.allFit_iff.mpr
          (Every.concat (Ty.allFit_iff.mp (hx hφ)) (ht hφ)))

theorem goes_paramTypes : Goes n (paramTypes ty) (fun x => Ty.AllFit x.1) φ :=
  proceeds_repeatStep (fun x => Ty.AllFit x.1) (fun _ hx => steps_paramTypeStep hty hx) fun _ => trivial

theorem goes_fields (close : Token) : Goes n (commaList close ty) Ty.AllFit φ :=
  (goes_commaList close hty).post fun _ _ h => Ty.allFit_iff.mpr h

theorem proceeds_typeHead :
    Proceeds φ A (n + 1) (fun _ => 1) (fun t => t.Fits ∧ LeadsIn A t) (typeHead ty) := by
  have hother : ∀ {t : Ty}, (φ → t.Fits) → t.lead ≠ .void → t.lead ≠ .label →
      Goes n (pure t) (fun t => t.Fits ∧ LeadsIn A t) φ :=
    fun ht hvoid hlabel => goes_pure _ fun hφ => ⟨ht hφ, leadsIn_of_ne hvoid hlabel⟩
  refine proceeds_taken (proceeds_next (by decide)) fun found hfound => ?_
  change Goes n _ _ φ
  cases found with
  | intType => exact hother (fun hφ => (hfound hφ).1) (by simp [Ty.lead]) (by simp [Ty.lead])
  | keyword word =>
    dsimp only
    cases ht : typeOfWord? word with
    | some t => exact goes_pure _ fun hφ => ⟨typeOfWord?_fits ht, leadsIn_word ht (hfound hφ).2⟩
    | none => exact proceeds_unexpected _ _
  | localName | localId =>
    exact hother (fun _ => trivial) (by simp [Ty.lead]) (by simp [Ty.lead])
  | leftBracket =>
    exact proceeds_bind consumes_arrayLength fun _ hn => proceeds_seq (consumes_expectWord _) fun _ =>
      proceeds_bind hty fun _ ht => proceeds_seq (consumes_expect _) fun _ =>
      hother (fun hφ => ⟨hn hφ, ht hφ⟩) (by simp [Ty.lead]) (by simp [Ty.lead])
  | leftBrace =>
    exact proceeds_bind (goes_fields hty _) fun _ hts =>
      hother hts (by simp [Ty.lead]) (by simp [Ty.lead])
  | less =>
    exact proceeds_seq (consumes_expect _) fun _ => proceeds_bind (goes_fields hty _) fun _ hts =>
      proceeds_seq (consumes_expect _) fun _ => hother hts (by simp [Ty.lead]) (by simp [Ty.lead])
  | _ => exact proceeds_unexpected _ _

theorem steps_suffixStep (ht : φ → t.Fits ∧ t.lead = u) : Steps n (suffixStep ty t)
    (Step.Keeps (fun t => t.Fits ∧ t.lead = u) fun t => t.Fits ∧ t.lead = u) φ := by
  refine proceeds_accept (goes_pure _ ht) ?_
  refine proceeds_accept (proceeds_seq goes_skipGroup fun _ => goes_pure _ ht) ?_
  exact proceeds_accept (proceeds_bind (goes_paramTypes hty) fun _ hx =>
    goes_pure _ fun hφ => ⟨⟨(ht hφ).1, hx hφ⟩, (ht hφ).2⟩) (steps_done _ ht)

theorem goes_typeSuffixes {head : Ty} (h : φ → head.Fits) :
    Goes n (typeSuffixes ty head) (fun t => t.Fits ∧ t.lead = head.lead) φ :=
  proceeds_repeatStep (fun t => t.Fits ∧ t.lead = head.lead) (fun _ ht => steps_suffixStep hty ht)
    fun hφ => ⟨h hφ, rfl⟩

theorem proceeds_typeBody :
    Proceeds φ A (n + 1) (fun _ => 1) (fun t => t.Fits ∧ LeadsIn A t) (typeBody ty) :=
  proceeds_taken (proceeds_typeHead hty) fun _ hhead =>
    (goes_typeSuffixes hty fun hφ => (hhead hφ).1).post fun _ hφ ht =>
      ⟨ht.1, (hhead hφ).2.of_lead ht.2⟩

end

theorem goes_typeWithin (depth : Nat) : Goes depth (typeWithin depth) Ty.Fits φ := by
  induction depth with
  | zero => exact proceeds_zero
  | succ depth ih => exact ((proceeds_typeBody ih).post fun _ _ h => h.1).moves

theorem proceeds_type :
    Proceeds φ A n (fun _ => 1) (fun t => t.Fits ∧ LeadsIn A t) type := by
  refine proceeds_measured fun depth => Proceeds.within ?_ (Nat.min_le_right _ _)
  cases depth with
  | zero => exact proceeds_zero
  | succ depth => exact proceeds_typeBody (goes_typeWithin depth)

theorem consumes_type : Consumes n type Ty.Fits φ := proceeds_type.post fun _ _ h => h.1

/-! ## 8. Terms -/

/-- The step of the loop over further typed values. -/
def moreTypedStep (value : Reader Term) (items : List TypedTerm) :
    Reader (Step (List TypedTerm) (List TypedTerm)) := do
  if ← accept .comma then return .again (items ++ [← typed value]) else return .done items

/-- A value, if those inside it are read like this. -/
def termBody (value : Reader Term) : Reader Term := do
  match ← next "expected value" with
  | .localName name => return .local (.named name)
  | .localId n => return .local (.numbered n)
  | .globalName name => return .global (.named name)
  | .globalId n => return .global (.numbered n)
  | .integer v => return .int v
  | .decimal bits | .hexBits bits => return .float bits
  | .bytes data => return .bytes data
  | .leftBracket => return .array (← commaList .rightBracket (typed value))
  | .leftBrace => return .struct (← commaList .rightBrace (typed value))
  | .less =>
    expect .leftBrace
    let fields ← commaList .rightBrace (typed value)
    expect .greater
    return .struct fields
  | .keyword word => wordConstant value word
  | other => unexpected "value" other

section

variable {value : Reader Term} (hvalue : Goes n value Term.Fits φ)
include hvalue

theorem proceeds_typed :
    Proceeds φ A n (fun _ => 1) (fun t => t.Fits ∧ LeadsIn A t.ty) (typed value) :=
  consumes_bind proceeds_type fun _ hty => proceeds_seq goes_skipParamAttributes fun _ =>
    proceeds_bind hvalue fun _ hterm =>
    goes_pure _ fun hφ => ⟨⟨(hty hφ).1, hterm hφ⟩, (hty hφ).2⟩

theorem consumes_typed : Consumes n (typed value) TypedTerm.Fits φ :=
  (proceeds_typed hvalue).post fun _ _ h => h.1

theorem steps_moreTypedStep {items : List TypedTerm} (hitems : φ → Every TypedTerm.Fits items) :
    Steps n (moreTypedStep value items)
      (Step.Keeps (Every TypedTerm.Fits) (Every TypedTerm.Fits)) φ :=
  proceeds_accept (proceeds_bind (consumes_typed hvalue) fun _ ht =>
    goes_pure _ fun hφ => (hitems hφ).concat (ht hφ)) (steps_done _ hitems)

theorem goes_moreTyped : Goes n (moreTyped value) (Every TypedTerm.Fits) φ :=
  proceeds_repeatStep (Every TypedTerm.Fits) (fun _ hitems => steps_moreTypedStep hvalue hitems)
    fun _ => every_nil

theorem goes_wordConstant (word : String) : Goes n (wordConstant value word) Term.Fits φ := by
  unfold wordConstant
  split
  · exact goes_pure _ fun _ => trivial
  · exact goes_pure _ fun _ => trivial
  · exact goes_pure _ fun _ => trivial
  · exact goes_pure _ fun _ => trivial
  · exact goes_pure _ fun _ => trivial
  · exact goes_pure _ fun _ => trivial
  · exact proceeds_seq (goes_accept _) fun _ => proceeds_seq (consumes_expect _) fun _ =>
      proceeds_bind consumes_type fun _ hsource => proceeds_seq (consumes_expect _) fun _ =>
      proceeds_bind (consumes_typed hvalue) fun _ hbase =>
      proceeds_bind (goes_moreTyped hvalue) fun _ hindices =>
      proceeds_seq (consumes_expect _) fun _ =>
      goes_pure _ fun hφ => ⟨hsource hφ, hbase hφ, TypedTerm.allFit_iff.mpr (hindices hφ)⟩
  · split
    · exact proceeds_seq (consumes_expect _) fun _ =>
        proceeds_bind (consumes_typed hvalue) fun _ ht => proceeds_seq (consumes_expectWord _) fun _ =>
        proceeds_bind consumes_type fun _ htarget => proceeds_seq (consumes_expect _) fun _ =>
        goes_pure _ fun hφ => ⟨ht hφ, htarget hφ⟩
    · exact proceeds_unexpected _ _

theorem goes_elements (close : Token) :
    Goes n (commaList close (typed value)) TypedTerm.AllFit φ :=
  (goes_commaList close (consumes_typed hvalue).moves).post fun _ _ h => TypedTerm.allFit_iff.mpr h

theorem consumes_termBody : Consumes (n + 1) (termBody value) Term.Fits φ := by
  refine proceeds_taken (consumes_next (by decide)).free fun found _ => ?_
  change Goes n _ _ φ
  cases found with
  | localName | localId | globalName | globalId | integer | decimal | hexBits | bytes =>
    exact goes_pure _ fun _ => trivial
  | leftBracket | leftBrace =>
    exact proceeds_bind (goes_elements hvalue _) fun _ hts => goes_pure _ hts
  | less =>
    exact proceeds_seq (consumes_expect _) fun _ => proceeds_bind (goes_elements hvalue _)
      fun _ hts => proceeds_seq (consumes_expect _) fun _ => goes_pure _ hts
  | keyword => exact goes_wordConstant hvalue _
  | _ => exact proceeds_unexpected _ _

end

theorem consumes_termWithin (depth : Nat) : Consumes depth (termWithin depth) Term.Fits φ :=
  consumes_nested consumes_termBody (fun _ => rfl) depth

theorem consumes_term : Consumes n term Term.Fits φ :=
  proceeds_measured fun depth => (consumes_termWithin depth).within (Nat.min_le_right _ _)

theorem consumes_typedTerm : Consumes n typedTerm TypedTerm.Fits φ :=
  consumes_typed consumes_term.moves

theorem goes_atTerm? : Goes n atTerm? := by
  refine proceeds_seq goes_peek fun t => ?_
  cases t with
  | none => exact goes_return _
  | some t =>
    cases t with
    | globalName | globalId => exact proceeds_seq goes_peekSecond fun _ => goes_return _
    | _ => exact goes_return _

/-! ## 9. Loops, step by step -/

section

variable {P : Step σ β → Prop} {step : σ → Reader (Step σ β)} {s s' s'' : σ} {c c' c'' : Cursor}
  {b : β}

/-- What a loop does behind a step. -/
def goOn (loop : σ → Reader β) : Step σ β → Reader β
  | .again s => loop s
  | .done b => pure b

theorem Steps.length_lt {r : Reader (Step σ β)} (h : ∀ n, Steps n r P)
    (hrun : r c = .ok (.again s, c')) : c'.rest.length < c.rest.length :=
  ((h (c.rest.length + 1)).run (Nat.lt_succ_self _) hrun).2

theorem repeatFuel_succ (fuel : Nat) (s : σ) :
    repeatFuel step (fuel + 1) s = step s >>= goOn (repeatFuel step fuel) :=
  congrArg (step s >>= ·) (funext fun x => by cases x <;> rfl)

section

variable (hstep : ∀ n s, Steps n (step s) P)
include hstep

theorem repeatFuel_enough {i : Nat} : ∀ {j : Nat} {s : σ} {c : Cursor}, c.rest.length < i →
    c.rest.length < j → repeatFuel step i s c = repeatFuel step j s c := by
  induction i with
  | zero => exact fun hi => absurd hi (Nat.not_lt_zero _)
  | succ i ih =>
    rintro (_ | j) s c hi hj
    · exact absurd hj (Nat.not_lt_zero _)
    · rw [repeatFuel_succ, repeatFuel_succ]
      cases hs : step s c with
      | error e =>
        change (step s c >>= _) = (step s c >>= _)
        rw [hs]
        rfl
      | ok x =>
        obtain ⟨x, c'⟩ := x
        rw [bind_run hs, bind_run hs]
        cases x with
        | again s' =>
          have hlt := Steps.length_lt (fun n => hstep n s) hs
          exact ih (by omega) (by omega)
        | done b => rfl

theorem repeatStep_unfold (s : σ) : repeatStep step s = step s >>= goOn (repeatStep step) := by
  funext c
  change repeatFuel step (c.rest.length + 1) s c = _
  rw [repeatFuel_succ]
  cases hs : step s c with
  | error e =>
    change (step s c >>= _) = (step s c >>= _)
    rw [hs]
    rfl
  | ok x =>
    obtain ⟨x, c'⟩ := x
    rw [bind_run hs, bind_run hs]
    cases x with
    | again s' =>
      have hlt := Steps.length_lt (fun n => hstep n s) hs
      exact repeatFuel_enough hstep hlt (Nat.lt_succ_self _)
    | done b => rfl

end

/-- Steps lead from one state and place to another. -/
inductive Walks (step : σ → Reader (Step σ β)) : σ → Cursor → σ → Cursor → Prop
  | here {s : σ} {c : Cursor} : Walks step s c s c
  | again {s s' s'' : σ} {c c' c'' : Cursor} (h : step s c = .ok (.again s', c'))
    (hw : Walks step s' c' s'' c'') : Walks step s c s'' c''

theorem Walks.trans (h : Walks step s c s' c') (h' : Walks step s' c' s'' c'') :
    Walks step s c s'' c'' := by
  induction h with
  | here => exact h'
  | again hs _ ih => exact .again hs (ih h')

theorem walks_of_repeatFuel {fuel : Nat} : ∀ {s : σ} {c : Cursor},
    repeatFuel step fuel s c = .ok (b, c') →
      ∃ s₁ c₁, Walks step s c s₁ c₁ ∧ step s₁ c₁ = .ok (.done b, c') := by
  induction fuel with
  | zero =>
    intro s c h
    cases h
  | succ fuel ih =>
    intro s c h
    obtain ⟨x, c₁, hx, h⟩ := bind_ok.mp h
    cases x with
    | again s₁ =>
      obtain ⟨s₂, c₂, hw, hdone⟩ := ih h
      exact ⟨s₂, c₂, .again hx hw, hdone⟩
    | done b =>
      cases h
      exact ⟨s, c, .here, hx⟩

section

variable (hstep : ∀ n s, Steps n (step s) P)
include hstep

theorem Walks.repeatStep_eq (h : Walks step s c s' c') :
    repeatStep step s c = repeatStep step s' c' := by
  induction h with
  | here => rfl
  | again hs _ ih =>
    rw [repeatStep_unfold hstep, bind_run hs]
    exact ih

theorem Walks.repeatStep_error (h : Walks step s c s' c')
    (he : step s' c' = .error e) : repeatStep step s c = .error e := by
  rw [h.repeatStep_eq hstep, repeatStep_unfold hstep]
  exact except_bind_error.mpr (.inl he)

/-- A loop that succeeds is a walk of steps and a last one. -/
theorem repeatStep_ok_iff : repeatStep step s c = .ok (b, c') ↔
    ∃ s₁ c₁, Walks step s c s₁ c₁ ∧ step s₁ c₁ = .ok (.done b, c') := by
  refine ⟨walks_of_repeatFuel, fun ⟨s₁, c₁, hw, hdone⟩ => ?_⟩
  rw [hw.repeatStep_eq hstep, repeatStep_unfold hstep, bind_run hdone]
  rfl

end

end

end Reader

end QirProfile.Assembly
