import Mathlib.Order.Defs.Unbundled

/-!
# Steps that succeed

Edits, walks and rules are steps of one kind: a function from a state to an answer and a state, or to
an error. A proof about a run that succeeded takes the run apart from its end: `bind_ok` says that
both parts of a sequence succeeded.

`Keeps R x` says that `x`, when it succeeds, relates its first to its last state by `R`. For a
preorder `R` the lemmas below carry it through sequences and loops.
-/

namespace QirProfile

variable {ε σ α β : Type}

/-! ## 1. Taking a run apart -/

/-- Both parts of a sequence that succeeds have succeeded. -/
theorem bind_ok {x : EStateM ε σ α} {f : α → EStateM ε σ β} {s s' : σ} {b : β}
    (h : (x >>= f) s = .ok b s') : ∃ a u, x s = .ok a u ∧ f a u = .ok b s' := by
  simp only [bind, EStateM.bind] at h
  split at h
  · rename_i a u hx
    exact ⟨a, u, hx, h⟩
  · cases h

theorem bind_of_ok {x : EStateM ε σ α} {s u : σ} {a : α} (h : x s = .ok a u)
    (f : α → EStateM ε σ β) : (x >>= f) s = f a u := by
  simp only [bind, EStateM.bind, h]

theorem bind_of_error {x : EStateM ε σ α} {s u : σ} {e : ε} (h : x s = .error e u)
    (f : α → EStateM ε σ β) : (x >>= f) s = .error e u := by
  simp only [bind, EStateM.bind, h]

theorem get_bind (f : σ → EStateM ε σ α) (s : σ) : (get >>= f) s = f s s := rfl

theorem pure_ok {a b : α} {s s' : σ} (h : (pure a : EStateM ε σ α) s = .ok b s') :
    a = b ∧ s = s' := by
  cases h
  exact ⟨rfl, rfl⟩

theorem get_ok {a s s' : σ} (h : (get : EStateM ε σ σ) s = .ok a s') : s = a ∧ s = s' := by
  cases h
  exact ⟨rfl, rfl⟩

theorem modify_ok {f : σ → σ} {s s' : σ} {u : PUnit}
    (h : (modify f : EStateM ε σ PUnit) s = .ok u s') : s' = f s := by
  cases h
  rfl

theorem discard_ok {x : EStateM ε σ α} {s s' : σ} {u : PUnit}
    (h : (discard x : EStateM ε σ PUnit) s = .ok u s') : ∃ a, x s = .ok a s' := by
  obtain ⟨a, t, hx, h⟩ := bind_ok (x := x) h
  cases h
  exact ⟨a, hx⟩

/-- Whether a run succeeded, and what it ends in passes a check. A match in place of this would be
    evaluated twice when a proof by evaluation is checked. -/
def endsOk (r : EStateM.Result ε σ α) (check : α → σ → Bool) : Bool :=
  match r with
  | .ok a s => check a s
  | .error _ _ => false

/-- Whether a run failed, and what it ends in passes a check. -/
def endsInError (r : EStateM.Result ε σ α) (check : ε → σ → Bool) : Bool :=
  match r with
  | .ok _ _ => false
  | .error e s => check e s

theorem exists_answer {r : EStateM.Result ε σ α} {P : α → σ → Prop} [∀ a s, Decidable (P a s)]
    (h : endsOk r (fun a s => decide (P a s)) = true) : ∃ a s, r = .ok a s ∧ P a s := by
  cases r with
  | ok a s => exact ⟨a, s, rfl, of_decide_eq_true h⟩
  | error e s => cases h

theorem exists_ok {r : EStateM.Result ε σ α} {P : σ → Prop} [DecidablePred P]
    (h : endsOk r (fun _ s => decide (P s)) = true) : ∃ a s, r = .ok a s ∧ P s :=
  exists_answer h

theorem exists_error {r : EStateM.Result ε σ α} {P : ε → σ → Prop} [∀ e s, Decidable (P e s)]
    (h : endsInError r (fun e s => decide (P e s)) = true) : ∃ e s, r = .error e s ∧ P e s := by
  cases r with
  | ok a s => cases h
  | error e s => exact ⟨e, s, rfl, of_decide_eq_true h⟩

theorem exists_value {x : Except ε α} {P : α → Prop} [DecidablePred P]
    (h : x.toOption.any (fun a => decide (P a)) = true) : ∃ a, x = .ok a ∧ P a := by
  cases x with
  | error e => cases h
  | ok a => exact ⟨a, rfl, of_decide_eq_true h⟩

theorem except_bind_ok {x : Except ε α} {f : α → Except ε β} {b : β} :
    (x >>= f) = .ok b ↔ ∃ a, x = .ok a ∧ f a = .ok b := by
  cases x with
  | error e =>
    constructor
    · intro h
      cases h
    · rintro ⟨a, h, -⟩
      cases h
  | ok a =>
    constructor
    · intro h
      exact ⟨a, rfl, h⟩
    · rintro ⟨a', h, hf⟩
      cases h
      exact hf

theorem except_bind_error {x : Except ε α} {f : α → Except ε β} {e : ε} :
    (x >>= f) = .error e ↔ x = .error e ∨ ∃ a, x = .ok a ∧ f a = .error e := by
  cases x with
  | error e' =>
    constructor
    · intro h
      cases h
      exact .inl rfl
    · rintro (h | ⟨a, h, -⟩)
      · cases h
        rfl
      · cases h
  | ok a =>
    constructor
    · intro h
      exact .inr ⟨a, rfl, h⟩
    · rintro (h | ⟨a', h, hf⟩)
      · cases h
      · cases h
        exact hf

theorem ok_of_toOption {x : Except ε α} {a : α} (h : x.toOption = some a) : x = .ok a := by
  cases x with
  | error e => cases h
  | ok b =>
    cases h
    rfl

theorem error_of_map {x : Except ε α} {e : ε} (h : x.map (fun _ => ()) = .error e) :
    x = .error e := by
  cases x with
  | error e' =>
    cases h
    rfl
  | ok a => cases h

/-! ## 2. What holds of sequences -/

/-- A property of steps that a sequence has if its parts have it. -/
structure Sequential (P : ∀ {α : Type}, EStateM ε σ α → Prop) : Prop where
  pure : ∀ {α : Type} (a : α), P (pure a)
  get : P (get : EStateM ε σ σ)
  bind : ∀ {α β : Type} {x : EStateM ε σ α} {f : α → EStateM ε σ β}, P x → (∀ a, P (f a)) →
    P (x >>= f)

namespace Sequential

variable {P : ∀ {α : Type}, EStateM ε σ α → Prop} (hP : Sequential P)

include hP

theorem forM_of_mem {f : α → EStateM ε σ PUnit} {as : List α} (hf : ∀ a ∈ as, P (f a)) :
    P (as.forM f) := by
  induction as with
  | nil => exact hP.pure _
  | cons a as ih =>
    exact hP.bind (hf a List.mem_cons_self) fun _ => ih fun b hb => hf b (List.mem_cons_of_mem a hb)

theorem forM {f : α → EStateM ε σ PUnit} (hf : ∀ a, P (f a)) (as : List α) : P (as.forM f) :=
  hP.forM_of_mem fun a _ => hf a

theorem optionForM {f : α → EStateM ε σ PUnit} (hf : ∀ a, P (f a)) (o : Option α) :
    P (o.forM f) := by
  cases o with
  | none => exact hP.pure _
  | some a => exact hf a

theorem foldlM {f : β → α → EStateM ε σ β} (hf : ∀ b a, P (f b a)) (as : List α) (b : β) :
    P (as.foldlM f b) := by
  induction as generalizing b with
  | nil => exact hP.pure _
  | cons a as ih =>
    rw [List.foldlM_cons]
    exact hP.bind (hf b a) fun c => ih c

theorem discard {x : EStateM ε σ α} (hx : P x) : P (discard x) :=
  hP.bind hx fun _ => hP.pure _

end Sequential

/-! ## 3. What a step keeps -/

/-- The step relates its first state to its last one, if it succeeds. -/
def Keeps (R : σ → σ → Prop) (x : EStateM ε σ α) : Prop :=
  ∀ s a s', x s = .ok a s' → R s s'

/-- The state that a step leaves behind, whether it succeeds or not. -/
def behind (x : EStateM ε σ α) (s : σ) : σ :=
  match x s with
  | .ok _ t => t
  | .error _ t => t

/-- The step relates its first state to the one it leaves behind, whether it succeeds or not. -/
def Always (R : σ → σ → Prop) (x : EStateM ε σ α) : Prop :=
  ∀ s, R s (behind x s)

theorem Always.keeps {R : σ → σ → Prop} {x : EStateM ε σ α} (h : Always R x) : Keeps R x := by
  intro s a t hx
  have hs := h s
  unfold behind at hs
  rwa [hx] at hs

section

variable {R : σ → σ → Prop} [IsPreorder σ R]

theorem sequential_keeps : Sequential (fun {α} => Keeps (ε := ε) (α := α) R) where
  pure a s b s' h := by
    rw [(pure_ok h).2]
    exact refl_of R s'
  get s b s' h := by
    rw [(get_ok h).2]
    exact refl_of R s'
  bind hx hf s b s' h := by
    obtain ⟨a, u, h₁, h₂⟩ := bind_ok h
    exact trans_of R (hx s a u h₁) (hf a u b s' h₂)

theorem sequential_always : Sequential (fun {α} => Always (ε := ε) (α := α) R) where
  pure _ s := refl_of R s
  get s := refl_of R s
  bind {_ _ x f} hx hf s := by
    have hxs := hx s
    unfold behind at hxs ⊢
    simp only [Bind.bind, EStateM.bind]
    cases h : x s with
    | ok a t =>
      rw [h] at hxs
      exact trans_of R hxs (hf a t)
    | error e t =>
      rw [h] at hxs
      exact hxs

theorem always_throw (e : ε) : Always R (throw e : EStateM ε σ α) := fun s => refl_of R s

theorem keeps_pure (a : α) : Keeps R (pure a : EStateM ε σ α) := sequential_keeps.pure a

theorem keeps_get : Keeps R (get : EStateM ε σ σ) := sequential_keeps.get

theorem keeps_bind {x : EStateM ε σ α} {f : α → EStateM ε σ β} (hx : Keeps R x)
    (hf : ∀ a, Keeps R (f a)) : Keeps R (x >>= f) :=
  sequential_keeps.bind hx hf

theorem forM_reaches {f : α → EStateM ε σ PUnit} (hf : ∀ a, Keeps R (f a)) {as : List α} {s t : σ}
    {u : PUnit} (h : as.forM f s = .ok u t) {a : α} (ha : a ∈ as) :
    ∃ s' t' v, R s s' ∧ f a s' = .ok v t' ∧ R t' t := by
  induction as generalizing s with
  | nil => cases ha
  | cons x as ih =>
    obtain ⟨v, r, hx, hrest⟩ := bind_ok h
    rcases List.mem_cons.mp ha with rfl | ha
    · exact ⟨s, r, v, refl_of R s, hx, sequential_keeps.forM hf as r u t hrest⟩
    · obtain ⟨s', t', w, hs, hreached, ht⟩ := ih hrest ha
      exact ⟨s', t', w, trans_of R (hf x s v r hx) hs, hreached, ht⟩

end

/-! ## 4. Why a step fails -/

/-- The step fails with such errors only. -/
def FailsWith (E : ε → Prop) (x : EStateM ε σ α) : Prop :=
  ∀ s e t, x s = .error e t → E e

section

variable {E : ε → Prop}

theorem sequential_failsWith : Sequential (fun {α} => FailsWith (σ := σ) (α := α) E) where
  pure _ _ _ _ h := nomatch h
  get _ _ _ h := nomatch h
  bind {_ _ x f} hx hf s e t h := by
    cases hr : x s with
    | ok a s' =>
      rw [bind_of_ok hr] at h
      exact hf a s' e t h
    | error e' s' =>
      rw [bind_of_error hr] at h
      cases h
      exact hx s _ _ hr

theorem failsWith_throw {e : ε} (h : E e) : FailsWith (σ := σ) (α := α) E (throw e) := by
  rintro s e' t ⟨⟩
  exact h

theorem failsWith_modify (f : σ → σ) : FailsWith E (modify f : EStateM ε σ PUnit) :=
  fun _ _ _ h => nomatch h

end

/-! ## 5. What a step comes to -/

/-- What a step from `s` comes to: `Q` where it succeeds, and `E` of the error where it fails. -/
def ComesTo (x : EStateM ε σ α) (s : σ) (E : ε → Prop) (Q : α → σ → Prop) : Prop :=
  match x s with
  | .ok a t => Q a t
  | .error e _ => E e

section

variable {E : ε → Prop} {Q : α → σ → Prop} {x : EStateM ε σ α} {s t : σ}

theorem ComesTo.of_ok {a : α} (h : ComesTo x s E Q) (hx : x s = .ok a t) : Q a t := by
  unfold ComesTo at h
  rwa [hx] at h

theorem ComesTo.of_error {e : ε} (h : ComesTo x s E Q) (hx : x s = .error e t) : E e := by
  unfold ComesTo at h
  rwa [hx] at h

theorem comesTo_of_ok {a : α} (hx : x s = .ok a t) (h : Q a t) : ComesTo x s E Q := by
  unfold ComesTo
  rwa [hx]

theorem comesTo_of_error {e : ε} (hx : x s = .error e t) (h : E e) : ComesTo x s E Q := by
  unfold ComesTo
  rwa [hx]

theorem ComesTo.of_eq {y : EStateM ε σ α} (h : ComesTo y s E Q) (hx : x s = y s) :
    ComesTo x s E Q := by
  unfold ComesTo at h ⊢
  rwa [hx]

theorem ComesTo.mono {E' : ε → Prop} {R : α → σ → Prop} (h : ComesTo x s E Q)
    (hE : ∀ e, E e → E' e) (hQ : ∀ a t, Q a t → R a t) : ComesTo x s E' R := by
  unfold ComesTo at h ⊢
  cases hx : x s with
  | ok a t =>
    rw [hx] at h
    exact hQ a t h
  | error e t =>
    rw [hx] at h
    exact hE e h

theorem ComesTo.bind {f : α → EStateM ε σ β} {R : β → σ → Prop}
    (h : ComesTo x s E fun a t => ComesTo (f a) t E R) : ComesTo (x >>= f) s E R := by
  unfold ComesTo at h ⊢
  simp only [Bind.bind, EStateM.bind]
  cases hx : x s with
  | ok a t =>
    rw [hx] at h
    exact h
  | error e t =>
    rw [hx] at h
    exact h

theorem ComesTo.after {f : α → EStateM ε σ β} {R : β → σ → Prop} {a : α} (hx : x s = .ok a t)
    (h : ComesTo (f a) t E R) : ComesTo (x >>= f) s E R := by
  unfold ComesTo at h ⊢
  rwa [bind_of_ok hx]

theorem comesTo_foldlM {f : β → α → EStateM ε σ β} {as : List α} {b : β}
    (Inv : List α → β → σ → Prop) (hstart : Inv as b s)
    (hstep : ∀ a as b s, Inv (a :: as) b s → ComesTo (f b a) s E (Inv as)) :
    ComesTo (as.foldlM f b) s E (Inv []) := by
  induction as generalizing b s with
  | nil => exact hstart
  | cons a as ih =>
    rw [List.foldlM_cons]
    exact ((hstep a as b s hstart).mono (fun _ h => h) fun c t h => ih h).bind

theorem comesTo_forM {f : α → EStateM ε σ PUnit} {as : List α} (Inv : List α → σ → Prop)
    (hstart : Inv as s)
    (hstep : ∀ a as s, Inv (a :: as) s → ComesTo (f a) s E fun _ => Inv as) :
    ComesTo (as.forM f) s E fun _ => Inv [] := by
  induction as generalizing s with
  | nil => exact comesTo_of_ok rfl hstart
  | cons a as ih =>
    exact ((hstep a as s hstart).mono (fun _ h => h) fun _ t h => ih h).bind

theorem ComesTo.discard {Q : σ → Prop} (h : ComesTo x s E fun _ => Q) :
    ComesTo (discard x : EStateM ε σ PUnit) s E fun _ => Q :=
  ComesTo.bind (h.mono (fun _ he => he) fun _ _ ht => comesTo_of_ok rfl ht)

end

/-! ## 6. How a step ends -/

/-- A step from `s` that succeeds ends in what `Q` says, and it fails only if `E` holds. -/
def Ends (x : EStateM ε σ α) (s : σ) (E : Prop) (Q : α → σ → Prop) : Prop :=
  ComesTo x s (fun _ => E) Q

section

variable {E : Prop} {Q : α → σ → Prop} {x : EStateM ε σ α} {s t : σ}

theorem Ends.of_ok {a : α} (h : Ends x s E Q) (hx : x s = .ok a t) : Q a t :=
  ComesTo.of_ok h hx

theorem Ends.of_error {e : ε} (h : Ends x s E Q) (hx : x s = .error e t) : E :=
  ComesTo.of_error h hx

theorem Ends.mono {R : α → σ → Prop} (h : Ends x s E Q) (hQR : ∀ a t, Q a t → R a t) :
    Ends x s E R :=
  ComesTo.mono h (fun _ h => h) hQR

theorem Ends.bind {f : α → EStateM ε σ β} {R : β → σ → Prop}
    (h : Ends x s E fun a t => Ends (f a) t E R) : Ends (x >>= f) s E R :=
  ComesTo.bind h

theorem Ends.after {f : α → EStateM ε σ β} {a : α} {R : β → σ → Prop} (hx : x s = .ok a t)
    (h : Ends (f a) t E R) : Ends (x >>= f) s E R :=
  ComesTo.after hx h

theorem ends_foldlM {f : β → α → EStateM ε σ β} {as : List α} {b : β} (Inv : List α → β → σ → Prop)
    (hstart : Inv as b s) (hstep : ∀ a as b s, Inv (a :: as) b s → Ends (f b a) s E (Inv as)) :
    Ends (as.foldlM f b) s E (Inv []) :=
  comesTo_foldlM Inv hstart hstep

end

end QirProfile
