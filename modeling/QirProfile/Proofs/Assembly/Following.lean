import QirProfile.Proofs.Assembly.Joining
import QirProfile.Proofs.Assembly.Proceeding

/-!
# What follows a reader

A reader depends on the tokens that it takes, and on one or two tokens that follow them. A `Follow`
relates what follows here to what follows elsewhere, and `Tracks k m B n g r r'` says that `r'` reads the
tokens that `r` has taken, `k` lines further down and in front of anything that `B` relates to what
follows `r`, and answers accordingly. `Keeps` is the case of a reader whose answers hold no lines.

What a reader may look at decides in front of what it keeps its answers: nothing at all for a reader
that ends with a mark of its own (any `B`), one mark for a reader that may go on (`Quiet`), a whole
token for the readers of words (`Inner`), and two for those that look ahead (`Steady`).
-/

namespace QirProfile.Assembly

/-! ## 1. What follows -/

/-- What follows a reader here, and what follows it elsewhere. -/
abbrev Follow := List Lexeme → List Lexeme → Prop

/-- Whether an entity may start with the token. -/
def Token.startsEntity : Token → Bool
  | keyword word => Reader.isEntityWord word
  | localName _ | localId _ | globalName _ | globalId _ | metadataName _ | metadataId _ => true
  | _ => false

/-- Whether the token is a local symbol. -/
def Token.isLocal : Token → Bool
  | localName _ | localId _ => true
  | _ => false

/-- Nothing is left, or an entity starts: with its word, or with a symbol that is defined. -/
def StartsEntity (xs : List Lexeme) : Prop :=
  ∀ t ∈ nextToken xs, t.startsEntity = true ∧
    ((∃ word, t = .keyword word) ∨ nextToken xs.tail = some .equals)

namespace Follow

/-- The same token follows. -/
def Inner : Follow := fun ys zs => ys ≠ [] ∧ nextToken zs = nextToken ys

/-- The same token follows, or the text ends here and an entity starts there. -/
def Outer : Follow := fun ys zs => nextToken zs = nextToken ys ∨ ys = [] ∧ StartsEntity zs

/-- The same token follows, and the same one behind a comma. -/
def Steady : Follow := fun ys zs =>
  Inner ys zs ∧ (nextToken ys = some .comma → nextToken zs.tail = nextToken ys.tail)

/-- The same token follows, in front of an equals sign or not, or the text ends here and an entity
    starts there. -/
def Border : Follow := fun ys zs =>
  Outer ys zs ∧ (ys ≠ [] → (nextToken zs.tail = some .equals ↔ nextToken ys.tail = some .equals))

/-- The same, and no entity that starts there starts with a local symbol. -/
def NoLocal : Follow := fun ys zs =>
  Border ys zs ∧ (ys = [] → ∀ t ∈ nextToken zs, t.isLocal = false)

/-- What follows may be one of the entities of `Border`, and looks alike to a reader that looks for a
    mark. -/
class Quiet (B : Follow) : Prop where
  outer : ∀ ys zs, B ys zs → Outer ys zs

/-- Further tokens may stand in between. -/
class Closed (k : Nat) (B : Follow) : Prop where
  append : ∀ y ys zs, B ys zs → B (y ++ ys) (y.map (·.moved k) ++ zs)

variable {k : Nat} {B : Follow} {y ys zs : List Lexeme}

theorem nextToken_append (hy : y ≠ []) :
    nextToken (y.map (·.moved k) ++ zs) = nextToken (y ++ ys) := by
  cases y with
  | nil => exact absurd rfl hy
  | cons x y => rfl

theorem inner_append (hy : 0 < y.length) : Inner (y ++ ys) (y.map (·.moved k) ++ zs) := by
  cases y with
  | nil => cases hy
  | cons x y => exact ⟨List.cons_ne_nil _ _, rfl⟩

theorem Outer.ne_equals (h : Outer ys zs) : nextToken zs = some .equals ↔ nextToken ys = some .equals := by
  rcases h with h | ⟨rfl, hstarts⟩
  · rw [h]
  · refine ⟨fun hz => ?_, fun hz => by cases hz⟩
    obtain ⟨hstart, -⟩ := hstarts _ hz
    cases hstart

theorem Border.next (h : Border ys zs) (hys : ys ≠ []) : nextToken zs = nextToken ys :=
  h.1.resolve_right fun hend => hys hend.1

theorem Border.second (h : Border ys zs) (hys : y ++ ys ≠ []) :
    nextToken (y.map (·.moved k) ++ zs).tail = some .equals ↔
      nextToken (y ++ ys).tail = some .equals := by
  match y with
  | [] => exact h.2 hys
  | [x] => exact h.1.ne_equals
  | x :: x' :: y => exact Iff.rfl

theorem Border.starts (h : Border ys zs) (hys : ys = []) : StartsEntity zs := by
  subst hys
  rcases h.1 with h | ⟨-, h⟩
  · intro t ht
    rw [h] at ht
    cases ht
  · exact h

instance : Quiet Inner := ⟨fun _ _ h => .inl h.2⟩
instance : Quiet Outer := ⟨fun _ _ h => h⟩
instance : Quiet Steady := ⟨fun _ _ h => .inl h.1.2⟩
instance : Quiet Border := ⟨fun _ _ h => h.1⟩
instance : Quiet NoLocal := ⟨fun _ _ h => h.1.1⟩

instance : Closed k Inner where
  append y ys zs h := by
    cases y with
    | nil => exact h
    | cons x y => exact inner_append (Nat.succ_pos _)

instance : Closed k Outer where
  append y ys zs h := by
    cases y with
    | nil => exact h
    | cons x y => exact .inl rfl

instance : Closed k Steady where
  append y ys zs h := by
    match y with
    | [] => exact h
    | [x] => exact ⟨inner_append (Nat.succ_pos _), fun _ => h.1.2⟩
    | x :: x' :: y => exact ⟨inner_append (Nat.succ_pos _), fun _ => rfl⟩

instance : Closed k Border where
  append y ys zs h := ⟨Closed.append y ys zs h.1, h.second⟩

instance : Closed k NoLocal where
  append y ys zs h := by
    cases y with
    | nil => exact h
    | cons x y => exact ⟨Closed.append (x :: y) ys zs h.1, nofun⟩

instance : Closed k (fun _ _ => True) := ⟨fun _ _ _ _ => trivial⟩

theorem nextToken_eq_iff [hB : Quiet B] {t : Token} (ht : t.startsEntity = false) (h : B ys zs) :
    nextToken zs = some t ↔ nextToken ys = some t := by
  rcases hB.outer ys zs h with h | ⟨rfl, hstarts⟩
  · rw [h]
  · refine ⟨fun hz => ?_, fun hz => by cases hz⟩
    rw [(hstarts t hz).1] at ht
    cases ht

end Follow

namespace Reader

open Follow

/-! ## 2. Readers that track each other -/

variable {α β γ δ σ τ : Type} {k m n i j : Nat} {B C : Follow} {g : α → γ} {g₂ : β → δ}
  {r : Reader α} {r' : Reader γ} {f : α → Reader β} {f' : γ → Reader δ}

/-- Where `r` has at least `m` tokens in front of it and answers, it has taken at least `n` of them, and
    `r'` answers accordingly in front of the same tokens, `k` lines further down, and anything that
    `B` relates to what follows `r`. -/
def Tracks (k m : Nat) (B : Follow) (n : Nat) (g : α → γ) (r : Reader α) (r' : Reader γ) : Prop :=
  ∀ c a c', m ≤ c.rest.length → r c = .ok (a, c') → ∃ x, c.rest = x ++ c'.rest ∧ n ≤ x.length ∧
    ∀ zs, c'.rest.length ≤ zs.length → B c'.rest zs → ∀ line, ∃ line',
      r' ⟨x.map (·.moved k) ++ zs, line⟩ = .ok (g a, ⟨zs, line'⟩)

/-- The reader's answers do not depend on what follows, as long as `B` relates it. -/
abbrev Keeps (k : Nat) (B : Follow) (n : Nat) (r : Reader α) : Prop := Tracks k 0 B n id r r

/-- The same in front of a token. -/
abbrev KeepsAhead (k : Nat) (B : Follow) (n : Nat) (r : Reader α) : Prop := Tracks k 1 B n id r r

theorem Tracks.mono {m' n' : Nat} (h : Tracks k m C n g r r') (hm : m ≤ m') (hn : n' ≤ n)
    (hB : ∀ ys zs, B ys zs → C ys zs) : Tracks k m' B n' g r r' := by
  intro c a c' hmc hrun
  obtain ⟨x, hx, hnx, htracks⟩ := h c a c' (hm.trans hmc) hrun
  exact ⟨x, hx, hn.trans hnx, fun zs hlength hzs => htracks zs hlength (hB _ _ hzs)⟩

theorem Tracks.goes (h : Tracks k m B n g r r') : Tracks k m B 0 g r r' :=
  h.mono (Nat.le_refl m) (Nat.zero_le n) fun _ _ => id

theorem Tracks.ahead (h : Tracks k 0 B n g r r') : Tracks k m B n g r r' :=
  h.mono (Nat.zero_le m) (Nat.le_refl n) fun _ _ => id

theorem Tracks.apart (h : Tracks k m (fun _ _ => True) n g r r') : Tracks k m B n g r r' :=
  h.mono (Nat.le_refl m) (Nat.le_refl n) fun _ _ _ => trivial

theorem tracks_bind_of {Q : List Lexeme → Prop} (h : Tracks k m C i g r r')
    (hf : ∀ a, Tracks k 0 B j g₂ (f a) (f' (g a))) (hQ : ∀ a c x, f a c = .ok x → Q c.rest)
    (hC : ∀ y ys zs, j ≤ y.length → Q (y ++ ys) → B ys zs →
      C (y ++ ys) (y.map (·.moved k) ++ zs))
    (hn : n ≤ i + j) : Tracks k m B n g₂ (r >>= f) (r' >>= f') := by
  intro c b c'' hm hrun
  obtain ⟨a, c', ha, hb⟩ := bind_ok.mp hrun
  obtain ⟨x, hx, hnx, hr⟩ := h c a c' hm ha
  obtain ⟨y, hy, hny, hfa⟩ := hf a c' b c'' (Nat.zero_le _) hb
  refine ⟨x ++ y, by rw [hx, hy, List.append_assoc], by rw [List.length_append]; omega,
    fun zs hlength hzs line => ?_⟩
  have hC' : C c'.rest (y.map (·.moved k) ++ zs) := by
    have hq := hQ a c' _ hb
    rw [hy] at hq ⊢
    exact hC y c''.rest zs hny hq hzs
  obtain ⟨line', hr'⟩ := hr (y.map (·.moved k) ++ zs) (by
    rw [hy, List.length_append, List.length_append, List.length_map]
    omega) hC' line
  obtain ⟨line'', hf'⟩ := hfa zs hlength hzs line'
  refine ⟨line'', ?_⟩
  rw [List.map_append, List.append_assoc, bind_run hr', hf']

theorem tracks_bind (h : Tracks k m C i g r r') (hf : ∀ a, Tracks k 0 B j g₂ (f a) (f' (g a)))
    (hC : ∀ y ys zs, j ≤ y.length → B ys zs → C (y ++ ys) (y.map (·.moved k) ++ zs))
    (hn : n ≤ i + j) : Tracks k m B n g₂ (r >>= f) (r' >>= f') :=
  tracks_bind_of (Q := fun _ => True) h hf (fun _ _ _ _ => trivial)
    (fun y ys zs hy _ => hC y ys zs hy) hn

theorem tracks_then (h : Tracks k m Inner i g r r')
    (hf : ∀ a, Tracks k 0 B 1 g₂ (f a) (f' (g a))) : Tracks k m B 1 g₂ (r >>= f) (r' >>= f') :=
  tracks_bind h hf (fun _ _ _ hy _ => inner_append hy) (Nat.le_add_left _ _)

theorem tracks_last [hB : Closed k B] (h : Tracks k m B n g r r')
    (hf : ∀ a, Tracks k 0 B 0 g₂ (f a) (f' (g a))) : Tracks k m B n g₂ (r >>= f) (r' >>= f') :=
  tracks_bind h hf (fun y ys zs _ => hB.append y ys zs) (Nat.le_add_right _ _)

theorem tracks_pure (a : α) : Tracks k m B 0 g (pure a) (pure (g a)) := by
  intro c b c' _ hrun
  cases hrun
  exact ⟨[], rfl, Nat.le_refl 0, fun zs _ _ line => ⟨line, rfl⟩⟩

theorem tracks_throw (e : ReadError) : Tracks k m B n g (throw e : Reader α) r' := by
  intro c b c' _ hrun
  cases hrun

theorem tracks_unexpected (expected : String) (found : Token) :
    Tracks k m B n g (unexpected expected found : Reader α) r' := by
  intro c b c' _ hrun
  cases hrun

theorem tracks_outOfRange (v : Int) :
    Tracks k m B n g (do throw (.integerOutOfRange (← get).line v) : Reader α) r' := by
  intro c b c' _ hrun
  cases hrun

section

variable {h : α → Reader β}

theorem keeps_then (hr : Tracks k m Inner i id r r) (hh : ∀ a, Keeps k B 1 (h a)) :
    Tracks k m B 1 id (r >>= h) (r >>= h) := tracks_then hr hh

theorem keeps_last [Closed k B] (hr : Tracks k m B n id r r) (hh : ∀ a, Keeps k B 0 (h a)) :
    Tracks k m B n id (r >>= h) (r >>= h) := tracks_last hr hh

theorem keeps_pure (a : α) : Tracks k m B 0 id (pure a : Reader α) (pure a) := tracks_pure a

theorem keeps_map [Closed k B] {φ : α → β} (hr : Tracks k m B n id r r) :
    Tracks k m B n id (φ <$> r) (φ <$> r) := by
  rw [map_eq_pure_bind]
  exact keeps_last hr fun _ => keeps_pure _

end

/-! ## 3. Looking and taking -/

theorem tracks_look {ε : Type} {look : Reader ε} {v : List Lexeme → ε} {f : ε → Reader β}
    {f' : ε → Reader δ} (hlook : ∀ c, look c = .ok (v c.rest, c)) (M : ε → Nat)
    (hM : ∀ xs, M (v xs) ≤ xs.length)
    (hsee : ∀ y ys zs, m ≤ (y ++ ys).length → n ≤ y.length → B ys zs →
      f' (v (y.map (·.moved k) ++ zs)) = f' (v (y ++ ys)))
    (hf : ∀ e, Tracks k (M e) B n g₂ (f e) (f' e)) : Tracks k m B n g₂ (look >>= f) (look >>= f') := by
  intro c b c' hm hrun
  rw [bind_run (hlook c)] at hrun
  obtain ⟨x, hx, hnx, htracks⟩ := hf _ c b c' (hM c.rest) hrun
  refine ⟨x, hx, hnx, fun zs hlength hzs line => ?_⟩
  obtain ⟨line', hf'⟩ := htracks zs hlength hzs line
  refine ⟨line', ?_⟩
  rw [bind_run (hlook _), hsee x c'.rest zs (hx ▸ hm) hnx hzs, ← hx]
  exact hf'

theorem tracks_peek {f : Option Token → Reader β} {f' : Option Token → Reader δ}
    (hsee : n = 0 → ∀ ys zs, m ≤ ys.length → B ys zs → f' (nextToken zs) = f' (nextToken ys))
    (hnone : Tracks k 0 B n g₂ (f none) (f' none))
    (hsome : ∀ t, Tracks k 1 B n g₂ (f (some t)) (f' (some t))) :
    Tracks k m B n g₂ (peek >>= f) (peek >>= f') := by
  refine tracks_look (v := nextToken) (fun _ => rfl) (fun t => if t.isSome then 1 else 0) ?_ ?_ ?_
  · rintro (_ | ⟨x, xs⟩)
    · exact Nat.le_refl 0
    · exact Nat.succ_pos _
  · intro y ys zs hm hn hzs
    cases y with
    | nil => exact hsee (Nat.le_zero.mp hn) ys zs hm hzs
    | cons x y => rfl
  · rintro (_ | t)
    · exact hnone
    · exact hsome t

theorem tracks_peek_taken {f : Option Token → Reader β} {f' : Option Token → Reader δ}
    (hnone : Tracks k 0 B 1 g₂ (f none) (f' none))
    (hsome : ∀ t, Tracks k 1 B 1 g₂ (f (some t)) (f' (some t))) :
    Tracks k m B 1 g₂ (peek >>= f) (peek >>= f') :=
  tracks_peek nofun hnone hsome

theorem tracks_peek_inner {f : Option Token → Reader β} {f' : Option Token → Reader δ}
    (hnone : Tracks k 0 Inner n g₂ (f none) (f' none))
    (hsome : ∀ t, Tracks k 1 Inner n g₂ (f (some t)) (f' (some t))) :
    Tracks k m Inner n g₂ (peek >>= f) (peek >>= f') :=
  tracks_peek (fun _ _ _ _ h => by rw [h.2]) hnone hsome

theorem tracks_peek_quiet [hB : Quiet B] {f : Option Token → Reader β} {f' : Option Token → Reader δ}
    (hend : ∀ t, t.startsEntity = true → f' (some t) = f' none)
    (hnone : Tracks k 0 B n g₂ (f none) (f' none))
    (hsome : ∀ t, Tracks k 1 B n g₂ (f (some t)) (f' (some t))) :
    Tracks k m B n g₂ (peek >>= f) (peek >>= f') := by
  refine tracks_peek (fun _ ys zs _ h => ?_) hnone hsome
  rcases hB.outer ys zs h with h | ⟨rfl, hstarts⟩
  · rw [h]
  · cases hzs : nextToken zs with
    | none => rfl
    | some t => exact hend t (hstarts t hzs).1

theorem keeps_advance : KeepsAhead k B 1 advance := by
  rintro ⟨_ | ⟨x, rest⟩, line⟩ a c' hm hrun
  · cases hm
  · cases hrun
    exact ⟨[x], rfl, Nat.le_refl 1, fun zs _ _ line => ⟨_, rfl⟩⟩

theorem keeps_next (context : String) : Keeps k B 1 (next context) := by
  rintro ⟨_ | ⟨x, rest⟩, line⟩ a c' - hrun <;> cases hrun
  exact ⟨[x], rfl, Nat.le_refl 1, fun zs _ _ line => ⟨_, rfl⟩⟩

theorem keeps_next_bind [Closed k B] {context : String} {h : Token → Reader β}
    (hh : ∀ t, Keeps k B 0 (h t)) : Keeps k B 1 (next context >>= h) :=
  keeps_last (keeps_next context) hh

section

variable {t : Token} {h : Bool → Reader β}

theorem keeps_at?_bind
    (hsee : n = 0 → ∀ ys zs, B ys zs → (nextToken zs = some t ↔ nextToken ys = some t))
    (htrue : KeepsAhead k B n (h true)) (hfalse : Keeps k B n (h false)) :
    Tracks k m B n id (at? t >>= h) (at? t >>= h) := by
  refine tracks_look (v := fun xs => nextToken xs == some t) (fun _ => rfl) Bool.toNat ?_ ?_ ?_
  · rintro (_ | ⟨x, xs⟩)
    · exact Nat.le_refl 0
    · exact (Bool.toNat_le _).trans (Nat.succ_pos _)
  · intro y ys zs _ hn hzs
    cases y with
    | nil =>
      have hiff := hsee (Nat.le_zero.mp hn) ys zs hzs
      have heq : (nextToken zs == some t) = (nextToken ys == some t) := by
        rw [Bool.eq_iff_iff, beq_iff_eq, beq_iff_eq, hiff]
      exact congrArg h heq
    | cons x y => rfl
  · rintro (_ | _)
    · exact hfalse
    · exact htrue

theorem keeps_accept_bind [Closed k B]
    (hsee : n = 0 → ∀ ys zs, B ys zs → (nextToken zs = some t ↔ nextToken ys = some t)) (hn : n ≤ 1)
    (htrue : Keeps k B 0 (h true)) (hfalse : Keeps k B n (h false)) :
    Tracks k m B n id (accept t >>= h) (accept t >>= h) := by
  rw [accept, bind_assoc]
  refine keeps_at?_bind hsee ?_ hfalse
  change KeepsAhead k B n ((advance >>= fun _ => pure true) >>= h)
  rw [bind_assoc]
  exact (keeps_last keeps_advance fun _ => htrue).mono (Nat.le_refl 1) hn fun _ _ => id

theorem keeps_accept_taken [Closed k B] (htrue : Keeps k B 0 (h true))
    (hfalse : Keeps k B 1 (h false)) : Tracks k m B 1 id (accept t >>= h) (accept t >>= h) :=
  keeps_accept_bind nofun (Nat.le_refl 1) htrue hfalse

theorem keeps_accept_quiet [Quiet B] [Closed k B] (ht : t.startsEntity = false)
    (htrue : Keeps k B 0 (h true)) (hfalse : Keeps k B 0 (h false)) :
    Tracks k m B 0 id (accept t >>= h) (accept t >>= h) :=
  keeps_accept_bind (fun _ _ _ => nextToken_eq_iff ht) (Nat.zero_le 1) htrue hfalse

theorem keeps_accept [Quiet B] [Closed k B] (ht : t.startsEntity = false) :
    Keeps k B 0 (accept t) := by
  rw [← bind_pure (accept t)]
  exact keeps_accept_quiet ht (keeps_pure _) (keeps_pure _)

end

theorem keeps_expect (t : Token) : Keeps k B 1 (expect t) := by
  refine Tracks.apart (keeps_next_bind fun found => ?_)
  split
  · exact tracks_unexpected _ _
  · exact keeps_pure _

theorem keeps_expectWord (word : String) : Keeps k B 1 (expectWord word) := by
  refine Tracks.apart (keeps_next_bind fun found => ?_)
  split
  · exact tracks_unexpected _ _
  · exact keeps_pure _

/-! ## 4. Repetition -/

/-- Where one reader answers, the other one gives the same answer, and in front of less than `n`
    tokens the two are the same. -/
structure Extends (n : Nat) (r r' : Reader α) : Prop where
  answers : ∀ c x, r c = .ok x → r' c = .ok x
  same : ∀ c, c.rest.length < n → r c = r' c

theorem Extends.mono {r r' : Reader α} (h : Extends n r r') (hm : m ≤ n) : Extends m r r' :=
  ⟨h.answers, fun c hc => h.same c (hc.trans_le hm)⟩

theorem extends_refl (r : Reader α) : Extends n r r := ⟨fun _ _ => id, fun _ _ => rfl⟩

theorem extends_bind {w : α → Nat} {P : α → Prop} {r r' : Reader α} {f f' : α → Reader β}
    (hr : Proceeds False Anything n w P r) (h : Extends n r r') (hf : ∀ a, Extends (n - w a) (f a) (f' a)) :
    Extends n (r >>= f) (r' >>= f') where
  answers := by
    rintro c ⟨b, c''⟩ hrun
    obtain ⟨a, c', ha, hb⟩ := bind_ok.mp hrun
    exact bind_ok.mpr ⟨a, c', h.answers c _ ha, (hf a).answers c' _ hb⟩
  same c hc := by
    change (r c >>= _) = (r' c >>= _)
    rw [← h.same c hc]
    cases hrun : r c with
    | error e => rfl
    | ok x =>
      have hlength := (hr.run hc hrun).2
      exact (hf x.1).same x.2 (by omega)

theorem extends_seq {w : α → Nat} {P : α → Prop} {r r' : Reader α} {f f' : α → Reader β}
    (hr : Proceeds False Anything n w P r) (h : Extends n r r') (hf : ∀ a, Extends n (f a) (f' a)) :
    Extends n (r >>= f) (r' >>= f') :=
  extends_bind hr.moves h hf

theorem extends_first {w : α → Nat} {P : α → Prop} {r r' : Reader α} {f : α → Reader β}
    (hr : Proceeds False Anything n w P r) (h : Extends n r r') : Extends n (r >>= f) (r' >>= f) :=
  extends_seq hr h fun _ => extends_refl _

theorem extends_then {w : α → Nat} {P : α → Prop} {r : Reader α} {f f' : α → Reader β}
    (hr : Proceeds False Anything n w P r) (hf : ∀ a, Extends n (f a) (f' a)) :
    Extends n (r >>= f) (r >>= f') :=
  extends_seq hr (extends_refl r) hf

theorem extends_throw (e : ReadError) (r' : Reader α) : Extends 0 (throw e : Reader α) r' where
  answers c x hrun := by cases hrun
  same c hc := absurd hc (Nat.not_lt_zero _)

/-- What a step gives elsewhere. -/
def Step.map (gs : σ → τ) (gb : α → γ) : Step σ α → Step τ γ
  | .again s => .again (gs s)
  | .done b => .done (gb b)

theorem Step.map_id : (Step.map id id : Step σ α → Step σ α) = id := by
  funext x
  cases x <;> rfl

theorem extends_repeatFuel {step step' : σ → Reader (Step σ α)} (hstep : ∀ s, Steps n (step s))
    (h : ∀ s, Extends n (step s) (step' s)) {i : Nat} : ∀ {j : Nat}, i ≤ j → ∀ s,
      Extends (min n i) (repeatFuel step i s) (repeatFuel step' j s) := by
  induction i with
  | zero =>
    rw [Nat.min_zero]
    exact fun _ s => extends_throw _ _
  | succ i ih =>
    rintro (_ | j) hij s
    · cases hij
    · refine extends_bind ((hstep s).within (Nat.min_le_left _ _))
        ((h s).mono (Nat.min_le_left _ _)) fun x => ?_
      cases x with
      | again s' =>
        exact (ih (Nat.le_of_succ_le_succ hij) s').mono (by simp only [Step.taken]; omega)
      | done b => exact extends_refl _

theorem extends_repeatStep {step step' : σ → Reader (Step σ α)} (hstep : ∀ s, Steps n (step s))
    (h : ∀ s, Extends n (step s) (step' s)) (s : σ) :
    Extends n (repeatStep step s) (repeatStep step' s) where
  answers c := (extends_repeatFuel hstep h (Nat.le_refl (c.rest.length + 1)) s).answers c
  same c hc := (extends_repeatFuel hstep h (Nat.le_refl (c.rest.length + 1)) s).same c
    (Nat.lt_min.mpr ⟨hc, Nat.lt_succ_self _⟩)

theorem extends_commaSeparated {P : α → Prop} {item item' : Reader α} (hitem : Goes n item P)
    (h : Extends n item item') : Extends n (commaSeparated item) (commaSeparated item') :=
  extends_repeatStep (fun _ => (steps_itemStep hitem False.elim).free)
    (fun _ => extends_first hitem h) _

theorem extends_commaList {P : α → Prop} {item item' : Reader α} (close : Token)
    (hitem : Goes n item P) (h : Extends n item item') : Extends n (commaList close item) (commaList close item') := by
  refine extends_then (goes_accept _) fun closed => ?_
  split
  · exact extends_refl _
  · exact extends_first (goes_commaSeparated hitem) (extends_commaSeparated hitem h)

theorem extends_nested {body : Reader α → Reader α} {within : Nat → Reader α}
    {P : α → Prop} (hbody : ∀ {n r r'}, Goes n r P → Extends n r r' → Extends (n + 1) (body r) (body r'))
    (hwithin : ∀ depth, within (depth + 1) = body (within depth))
    (hgoes : ∀ depth, Goes depth (within depth) P) {e : ReadError} (hzero : within 0 = throw e)
    {i : Nat} : ∀ {j : Nat}, i ≤ j → Extends i (within i) (within j) := by
  induction i with
  | zero => exact fun _ => hzero ▸ extends_throw _ _
  | succ i ih =>
    rintro (_ | j) hij
    · cases hij
    · rw [hwithin, hwithin]
      exact hbody (hgoes i) (ih (Nat.le_of_succ_le_succ hij))

theorem tracks_measured {within : Nat → Reader α} {within' : Nat → Reader γ}
    (hmono : ∀ {i j}, i ≤ j → ∀ c x, within' i c = .ok x → within' j c = .ok x)
    (h : ∀ i, Tracks k m B n g (within i) (within' i)) :
    Tracks k m B n g (do within ((← get).rest.length + 1))
      (do within' ((← get).rest.length + 1)) := by
  intro c a c' hm hrun
  obtain ⟨x, hx, hn, htracks⟩ := h (c.rest.length + 1) c a c' hm hrun
  refine ⟨x, hx, hn, fun zs hlength hzs line => ?_⟩
  obtain ⟨line', hrun'⟩ := htracks zs hlength hzs line
  refine ⟨line', hmono ?_ _ _ hrun'⟩
  rw [hx, List.length_append, List.length_append, List.length_map]
  omega

theorem tracks_repeatFuel [Closed k B] {u : σ → τ} {step : σ → Reader (Step σ α)}
    {step' : τ → Reader (Step τ γ)}
    (h : ∀ s, Tracks k 0 B 0 (Step.map u g) (step s) (step' (u s))) (fuel : Nat) :
    ∀ s, Tracks k 0 B 0 g (repeatFuel step fuel s) (repeatFuel step' fuel (u s)) := by
  induction fuel with
  | zero => exact fun s => tracks_throw _
  | succ fuel ih =>
    refine fun s => tracks_last (h s) fun x => ?_
    cases x with
    | again s' => exact ih s'
    | done b => exact tracks_pure b

theorem tracks_repeatStep [Closed k B] {u : σ → τ} {step : σ → Reader (Step σ α)}
    {step' : τ → Reader (Step τ γ)}
    (h : ∀ s, Tracks k 0 B 0 (Step.map u g) (step s) (step' (u s))) (s : σ) :
    Tracks k 0 B 0 g (repeatStep step s) (repeatStep step' (u s)) :=
  tracks_measured
    (fun hij => (extends_repeatFuel (fun _ => proceeds_zero) (fun _ => extends_refl _) hij (u s)).answers)
    fun fuel => tracks_repeatFuel h fuel s

theorem keeps_repeatStep [Closed k B] {step : σ → Reader (Step σ α)} {s : σ}
    (h : ∀ s, Keeps k B 0 (step s)) : Keeps k B 0 (repeatStep step s) := by
  refine tracks_repeatStep (u := id) (fun s => ?_) s
  rw [Step.map_id]
  exact h s

theorem keeps_commaSeparated [Quiet B] [Closed k B] {item : Reader α} (h : Keeps k B 0 item) :
    Keeps k B 0 (commaSeparated item) :=
  keeps_repeatStep fun _ => keeps_last h fun _ =>
    keeps_accept_quiet rfl (keeps_pure _) (keeps_pure _)

theorem keeps_commaList [Closed k B] {item : Reader α} (close : Token) (h : Keeps k Inner 0 item) :
    Keeps k B 1 (commaList close item) := by
  refine keeps_accept_taken (keeps_pure _) ?_
  exact keeps_then (keeps_commaSeparated h) fun _ => keeps_last (keeps_expect _) fun _ => keeps_pure _

/-! ## 5. Literals and groups -/

theorem keeps_number32 : Keeps k B 1 number32 := by
  refine Tracks.apart (keeps_next_bind fun found => ?_)
  split
  · split
    · exact keeps_pure _
    · exact tracks_outOfRange _
  · exact tracks_unexpected _ _

theorem keeps_string : Keeps k B 1 string := by
  refine Tracks.apart (keeps_next_bind fun found => ?_)
  split
  · exact keeps_pure _
  · exact tracks_unexpected _ _

theorem keeps_skipGroup : Keeps k B 0 skipGroup := by
  refine Tracks.apart (keeps_repeatStep fun depth => (keeps_next_bind fun found => ?_).goes)
  dsimp only
  split
  · exact keeps_pure _
  · exact keeps_pure _

section

variable [Quiet B]

theorem keeps_skipParens : Keeps k B 0 skipParens :=
  keeps_at?_bind (fun _ _ _ => nextToken_eq_iff rfl) keeps_skipGroup.ahead (keeps_pure _)

theorem keeps_skipMetadata [Closed k B] : Keeps k B 1 skipMetadata := by
  refine keeps_then (keeps_accept ?_) fun _ => keeps_next_bind fun found => ?_
  · decide
  · split
    · exact keeps_pure _
    · exact keeps_skipParens
    · refine tracks_peek_quiet (fun t ht => ?_) (keeps_pure _) fun t => ?_
      · cases t <;> first
          | rfl
          | cases ht
      · split
        · exact keeps_skipGroup.ahead
        · exact keeps_advance.goes
        · exact keeps_pure _
    · exact tracks_unexpected _ _

end

theorem keeps_localSymbol : Keeps k B 1 localSymbol := by
  refine Tracks.apart (keeps_next_bind fun found => ?_)
  split
  · exact keeps_pure _
  · exact keeps_pure _
  · exact tracks_unexpected _ _

theorem keeps_globalSymbol : Keeps k B 1 globalSymbol := by
  refine Tracks.apart (keeps_next_bind fun found => ?_)
  split
  · exact keeps_pure _
  · exact keeps_pure _
  · exact tracks_unexpected _ _

theorem keeps_label : Keeps k B 1 label :=
  keeps_then (keeps_expectWord _) fun _ => keeps_localSymbol

/-! ## 6. Types -/

theorem keeps_skipParamAttributes : Keeps k Inner 0 skipParamAttributes := by
  refine keeps_repeatStep fun _ => tracks_peek_inner (keeps_pure _) fun t => ?_
  split
  · split
    · exact keeps_pure _
    · refine keeps_last keeps_advance.goes fun _ => tracks_peek_inner ?_ fun t => ?_
      · split
        · rename_i heq
          cases heq
        · exact keeps_last keeps_skipParens fun _ => keeps_pure _
      · split
        · exact keeps_last keeps_advance.goes fun _ => keeps_pure _
        · exact keeps_last keeps_skipParens.ahead fun _ => keeps_pure _
  · exact keeps_pure _

theorem keeps_arrayLength : Keeps k B 1 arrayLength := by
  refine Tracks.apart (keeps_next_bind fun found => ?_)
  split
  · split
    · exact keeps_pure _
    · exact tracks_outOfRange _
  · exact tracks_unexpected _ _

section

variable {ty ty' : Reader Ty}

theorem keeps_paramTypes [Closed k B] (hty : Keeps k Inner 1 ty) : Keeps k B 0 (paramTypes ty) := by
  refine keeps_repeatStep ?_
  rintro ⟨params, varArg⟩
  dsimp only
  have hrest : ∀ x : List Ty × Bool, Keeps k B 1 (do
      if ← accept .comma then return Step.again (x.1, x.2)
      expect .rightParen
      return Step.done (x.1, x.2)) := fun x =>
    keeps_accept_taken (keeps_pure _) (keeps_last (keeps_expect _) fun _ => keeps_pure _)
  refine Tracks.goes (n := 1) (keeps_accept_taken (keeps_pure _) ?_)
  refine keeps_accept_taken (keeps_last (keeps_pure _) fun x => (hrest x).goes) ?_
  exact keeps_then hty fun _ => keeps_then keeps_skipParamAttributes fun _ =>
    keeps_then (keeps_pure _) hrest

theorem keeps_typeHead [Closed k B] (hty : Keeps k Inner 1 ty) : Keeps k B 1 (typeHead ty) := by
  refine keeps_next_bind fun found => ?_
  split
  · exact keeps_pure _
  · split
    · exact keeps_pure _
    · exact tracks_unexpected _ _
  · exact keeps_pure _
  · exact keeps_pure _
  · exact (keeps_then keeps_arrayLength fun _ => keeps_then (keeps_expectWord _) fun _ =>
      keeps_then hty fun _ => keeps_last (keeps_expect _) fun _ => keeps_pure _).goes
  · exact keeps_last (keeps_commaList _ hty.goes).goes fun _ => keeps_pure _
  · exact (keeps_then (keeps_expect _) fun _ => keeps_then (keeps_commaList _ hty.goes) fun _ =>
      keeps_last (keeps_expect _) fun _ => keeps_pure _).goes
  · exact tracks_unexpected _ _

theorem keeps_typeSuffixes [Quiet B] [Closed k B] (hty : Keeps k Inner 1 ty) (head : Ty) :
    Keeps k B 0 (typeSuffixes ty head) := by
  refine keeps_repeatStep fun t => keeps_accept_quiet rfl (keeps_pure _) ?_
  refine keeps_accept_quiet (by decide) (keeps_last keeps_skipGroup fun _ => keeps_pure _) ?_
  exact keeps_accept_quiet rfl (keeps_last (keeps_paramTypes hty) fun _ => keeps_pure _) (keeps_pure _)

end

theorem keeps_typeWithin [Quiet B] [Closed k B] (depth : Nat) : Keeps k B 1 (typeWithin depth) := by
  suffices h : ∀ {B : Follow} [Quiet B] [Closed k B], Keeps k B 1 (typeWithin depth) from h
  induction depth with
  | zero => exact tracks_throw _
  | succ depth ih =>
    intro B _ _
    exact keeps_last (keeps_typeHead ih) fun head => keeps_typeSuffixes ih head

section

variable {ty ty' : Reader Ty} (hty : Goes n ty Ty.Fits) (h : Extends n ty ty')
include hty h

theorem extends_paramTypes : Extends n (paramTypes ty) (paramTypes ty') := by
  refine extends_repeatStep (fun _ => (steps_paramTypeStep hty False.elim).free) ?_ _
  rintro ⟨params, varArg⟩
  refine extends_then (goes_accept _) fun closed => ?_
  split
  · exact extends_refl _
  · refine extends_then (goes_accept _) fun dots => ?_
    split
    · exact extends_refl _
    · exact extends_first hty h

theorem extends_typeHead : Extends (n + 1) (typeHead ty) (typeHead ty') := by
  refine extends_bind (consumes_next (by decide)) (extends_refl _) fun found => ?_
  change Extends n _ _
  cases found with
  | leftBracket =>
    exact extends_then consumes_arrayLength fun _ =>
      extends_then (consumes_expectWord _) fun _ => extends_first hty h
  | leftBrace => exact extends_first (goes_fields hty _) (extends_commaList _ hty h)
  | less =>
    exact extends_then (consumes_expect _) fun _ =>
      extends_first (goes_fields hty _) (extends_commaList _ hty h)
  | _ => exact extends_refl _

theorem extends_typeSuffixes (head : Ty) :
    Extends n (typeSuffixes ty head) (typeSuffixes ty' head) := by
  refine extends_repeatStep (fun _ => (steps_suffixStep hty (u := .void) False.elim).free) (fun t => ?_) head
  refine extends_then (goes_accept _) fun star => ?_
  split
  · exact extends_refl _
  · refine extends_then (goes_accept _) fun space => ?_
    split
    · exact extends_refl _
    · refine extends_then (goes_accept _) fun params => ?_
      split
      · exact extends_first (goes_paramTypes hty) (extends_paramTypes hty h)
      · exact extends_refl _

theorem extends_typeBody : Extends (n + 1) (typeBody ty) (typeBody ty') :=
  extends_bind (proceeds_typeHead hty) (extends_typeHead hty h) (extends_typeSuffixes hty h)

end

theorem extends_typeWithin {i j : Nat} : i ≤ j → Extends i (typeWithin i) (typeWithin j) :=
  extends_nested extends_typeBody (fun _ => rfl) goes_typeWithin rfl

theorem keeps_type [Quiet B] [Closed k B] : Keeps k B 1 type :=
  tracks_measured (fun hij => (extends_typeWithin hij).answers) keeps_typeWithin

/-! ## 7. Terms -/

section

variable {value value' : Reader Term}

theorem keeps_typed [Closed k B] (hvalue : Keeps k B 1 value) : Keeps k B 1 (typed value) :=
  keeps_then keeps_type fun _ => keeps_then keeps_skipParamAttributes fun _ =>
    keeps_last hvalue fun _ => keeps_pure _

theorem keeps_moreTyped [Quiet B] [Closed k B] (hvalue : Keeps k B 1 value) :
    Keeps k B 0 (moreTyped value) :=
  keeps_repeatStep fun _ => keeps_accept_quiet rfl
    (keeps_last (keeps_typed hvalue).goes fun _ => keeps_pure _) (keeps_pure _)

theorem keeps_wordConstant [Closed k B] (hvalue : Keeps k Inner 1 value) (word : String) :
    Keeps k B 0 (wordConstant value word) := by
  have htyped := keeps_typed hvalue
  unfold wordConstant
  split
  · exact keeps_pure _
  · exact keeps_pure _
  · exact keeps_pure _
  · exact keeps_pure _
  · exact keeps_pure _
  · exact keeps_pure _
  · refine (keeps_then (keeps_accept (by decide)) fun _ => keeps_then (keeps_expect _) fun _ =>
      keeps_then keeps_type fun _ => keeps_then (keeps_expect _) fun _ => keeps_then htyped fun _ =>
      keeps_then (keeps_moreTyped hvalue) fun _ => keeps_last (keeps_expect _) fun _ =>
      keeps_pure _).goes
  · split
    · exact (keeps_then (keeps_expect _) fun _ => keeps_then htyped fun _ =>
        keeps_then (keeps_expectWord _) fun _ => keeps_then keeps_type fun _ =>
        keeps_last (keeps_expect _) fun _ => keeps_pure _).goes
    · exact tracks_unexpected _ _

section

variable (hvalue : Goes n value Term.Fits) (h : Extends n value value')
include hvalue h

theorem extends_typed : Extends n (typed value) (typed value') :=
  extends_then consumes_type fun _ => extends_then goes_skipParamAttributes fun _ =>
    extends_first hvalue h

theorem extends_moreTyped : Extends n (moreTyped value) (moreTyped value') := by
  refine extends_repeatStep (fun _ => (steps_moreTypedStep hvalue False.elim).free) (fun _ => ?_) _
  refine extends_then (goes_accept _) fun more => ?_
  split
  · exact extends_first (consumes_typed hvalue) (extends_typed hvalue h)
  · exact extends_refl _

theorem extends_wordConstant (word : String) :
    Extends n (wordConstant value word) (wordConstant value' word) := by
  have htyped := consumes_typed hvalue
  unfold wordConstant
  split
  · exact extends_refl _
  · exact extends_refl _
  · exact extends_refl _
  · exact extends_refl _
  · exact extends_refl _
  · exact extends_refl _
  · exact extends_then (goes_accept _) fun _ => extends_then (consumes_expect _) fun _ =>
      extends_then consumes_type fun _ => extends_then (consumes_expect _) fun _ =>
      extends_seq htyped (extends_typed hvalue h) fun _ =>
      extends_first (goes_moreTyped hvalue) (extends_moreTyped hvalue h)
  · split
    · exact extends_then (consumes_expect _) fun _ =>
        extends_first htyped (extends_typed hvalue h)
    · exact extends_refl _

theorem extends_elements (close : Token) :
    Extends n (commaList close (typed value)) (commaList close (typed value')) :=
  extends_commaList close (consumes_typed hvalue).moves (extends_typed hvalue h)

theorem extends_termBody : Extends (n + 1) (termBody value) (termBody value') := by
  refine extends_bind (consumes_next (by decide)) (extends_refl _) fun found => ?_
  change Extends n _ _
  cases found with
  | leftBracket | leftBrace =>
    exact extends_first (goes_elements hvalue _) (extends_elements hvalue h _)
  | less =>
    exact extends_then (consumes_expect _) fun _ =>
      extends_first (goes_elements hvalue _) (extends_elements hvalue h _)
  | keyword => exact extends_wordConstant hvalue h _
  | _ => exact extends_refl _

end

end

theorem keeps_termWithin (depth : Nat) : Keeps k B 1 (termWithin depth) := by
  suffices h : Keeps k (fun _ _ => True) 1 (termWithin depth) from h.apart
  induction depth with
  | zero => exact tracks_throw _
  | succ depth ih =>
    have helements : ∀ close, Keeps k (fun _ _ => True) 1
        (commaList close (typed (termWithin depth))) := fun close =>
      keeps_commaList close (keeps_typed ih.apart).goes
    refine keeps_next_bind fun found => ?_
    cases found with
    | localName | localId | globalName | globalId | integer | decimal | hexBits | bytes =>
      exact keeps_pure _
    | leftBracket | leftBrace => exact keeps_last (helements _).goes fun _ => keeps_pure _
    | less =>
      exact (keeps_then (keeps_expect _) fun _ =>
        keeps_then (keeps_commaList _ (keeps_typed ih.apart).goes) fun _ =>
        keeps_last (keeps_expect _) fun _ => keeps_pure _).goes
    | keyword => exact keeps_wordConstant ih.apart _
    | _ => exact tracks_unexpected _ _

theorem extends_termWithin {i j : Nat} : i ≤ j → Extends i (termWithin i) (termWithin j) :=
  extends_nested extends_termBody (fun _ => rfl) (fun depth => (consumes_termWithin depth).moves) rfl

theorem keeps_term : Keeps k B 1 term :=
  tracks_measured (fun hij => (extends_termWithin hij).answers) keeps_termWithin

/-- A value with its type ends with a mark of its own, so anything may follow. -/
theorem keeps_typedTerm : Keeps k B 1 typedTerm := Tracks.apart (keeps_typed keeps_term)

end Reader

end QirProfile.Assembly
