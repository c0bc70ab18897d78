import QirProfile.Proofs.Assembly.Scanning

/-!
# Texts side by side

What a piece looks at does not reach over a character that stops it (`Stops`): in front of such a
character a piece is the same whatever follows, except for a quote that is still open there.
`Cuts line cs xs` says that a text is cut into the lexemes `xs`, piece by piece. So another text may be
put behind a line, and what stands behind a closing parenthesis may be replaced.
-/

namespace QirProfile.Assembly

open Text

/-! ## 1. Runs in front of a text that stops them -/

/-- A character that neither belongs to what stands in front of it nor makes it longer. -/
def isStop (c : Char) : Bool :=
  isApart c && c != '+'

/-- The text is empty or starts with such a character. -/
def Stops (cs : List Char) : Prop := ∀ c ∈ cs.head?, isStop c = true

variable {c : Char} {u v : List Char}

theorem stops_of_head {d : Char} (hd : isStop d = true) : Stops (d :: v) := by
  intro e he
  cases he
  exact hd

theorem Stops.apart (h : Stops v) : Apart v := by
  cases v with
  | nil => trivial
  | cons c v => exact (Bool.and_eq_true_iff.mp (h c rfl)).1

theorem Stops.head_ne (h : Stops v) {d : Char} (hd : isStop d = false) : v.head? ≠ some d := by
  intro heq
  rw [h d heq] at hd
  cases hd

theorem span_stops {p : Char → Bool} (h : ∀ d ∈ v.head?, p d = false) :
    (u ++ v).span p = ((u.span p).1, (u.span p).2 ++ v) := by
  induction u with
  | nil =>
    rw [List.nil_append, List.span_eq_takeWhile_dropWhile]
    cases v with
    | nil => rfl
    | cons d v => simp [h d rfl]
  | cons d u ih =>
    simp only [List.span_eq_takeWhile_dropWhile, Prod.mk.injEq] at ih ⊢
    cases hd : p d <;> simp [hd, ih]

theorem takeDigits_stops (h : Stops v) :
    takeDigits (u ++ v) = ((takeDigits u).1, (takeDigits u).2 ++ v) :=
  span_stops (head_not_digit h.apart)

/-- The sign at the head of a text, and what follows it. -/
def takeSign : List Char → List Char × List Char
  | '-' :: rest => (['-'], rest)
  | '+' :: rest => (['+'], rest)
  | rest => ([], rest)

theorem takeSign_stops (h : Stops v) : takeSign (u ++ v) = ((takeSign u).1, (takeSign u).2 ++ v) := by
  cases u with
  | nil =>
    have hself : takeSign v = ([], v) := by
      unfold takeSign
      split
      · exact absurd rfl (h.head_ne (d := '-') (by decide))
      · exact absurd rfl (h.head_ne (d := '+') (by decide))
      · rfl
    exact hself
  | cons d u =>
    by_cases hm : d = '-'
    · rw [hm]
      rfl
    · by_cases hp : d = '+'
      · rw [hp]
        rfl
      · simp [takeSign, hm, hp]

theorem takeExponent?_cons (mark : Char) (rest : List Char) : takeExponent? (mark :: rest) =
    if mark = 'e' ∨ mark = 'E' then
      match takeDigits (takeSign rest).2 with
      | ([], _) => none
      | (ds, after) => some (mark :: (takeSign rest).1 ++ ds,
        if (takeSign rest).1 = ['-'] then -(digitsValue ds : Int) else digitsValue ds, after)
    else none := by
  by_cases he : mark = 'e' ∨ mark = 'E'
  · unfold takeExponent?
    dsimp only
    rw [if_pos he, if_pos he]
    cases rest with
    | nil => rfl
    | cons d rest =>
      by_cases hm : d = '-'
      · rw [hm]
        rcases hds : takeDigits rest with ⟨_ | _, _⟩ <;> simp [takeSign, hds]
      · by_cases hp : d = '+'
        · rw [hp]
          rcases hds : takeDigits rest with ⟨_ | _, _⟩ <;> simp [takeSign, hds]
        · rcases hds : takeDigits (d :: rest) with ⟨_ | _, _⟩ <;> simp [takeSign, hm, hp, hds]
  · unfold takeExponent?
    dsimp only
    rw [if_neg he, if_neg he]

theorem takeExponent?_stops (h : Stops v) : takeExponent? (u ++ v) =
    (takeExponent? u).map fun (mark, n, after) => (mark, n, after ++ v) := by
  cases u with
  | nil =>
    cases v with
    | nil => rfl
    | cons d v =>
      have he : ¬(d = 'e' ∨ d = 'E') := by
        rintro (rfl | rfl) <;> exact absurd (h _ rfl) (by decide)
      rw [List.nil_append, takeExponent?_cons, if_neg he]
      rfl
  | cons mark u =>
    rw [List.cons_append, takeExponent?_cons, takeExponent?_cons, takeSign_stops h,
      takeDigits_stops h]
    obtain ⟨ds, after⟩ := takeDigits (takeSign u).2
    split
    · cases ds <;> rfl
    · rfl

/-! ## 2. Pieces in front of a text that stops them -/

/-- The piece in front of more text. -/
def Piece.before (p : Piece) (v : List Char) : Piece :=
  ⟨p.token, p.text, p.rest ++ v⟩

/-- In front of `v` the piece `p` becomes `q`: the same one, or it had an open quote, and then it goes
    on into `v` if it is not refused. -/
def Piece.Continues (v : List Char) (p q : Piece) : Prop :=
  q = p.before v ∨ p.token = none ∧ (q.token = none ∨ q.rest.length < v.length)

open Piece (Continues)

theorem scanDecimal_stops (h : Stops v) (sign whole : List Char) :
    scanDecimal sign whole (u ++ v) = (scanDecimal sign whole u).before v := by
  unfold scanDecimal
  rw [takeDigits_stops h]
  obtain ⟨places, after⟩ := takeDigits u
  simp only [takeExponent?_stops h]
  cases takeExponent? after with
  | none => rfl
  | some x => rfl


theorem scanNumber_stops (h : Stops v) : scanNumber (u ++ v) = (scanNumber u).before v := by
  have hhex := head_not_hex h.apart
  unfold scanNumber
  rw [takeDigits_stops h]
  obtain ⟨ds, after⟩ := takeDigits u
  cases after with
  | nil =>
    cases v with
    | nil => simp [Piece.before]
    | cons d v =>
      have hcolon : d ≠ ':' := fun hd => h.head_ne (d := ':') (by decide) (congrArg some hd)
      have hpoint : d ≠ '.' := fun hd => h.head_ne (d := '.') (by decide) (congrArg some hd)
      have hx : d ≠ 'x' := fun hd => h.head_ne (d := 'x') (by decide) (congrArg some hd)
      simp [hcolon, hpoint, hx, Piece.before]
  | cons d after =>
    by_cases hcolon : d = ':'
    · simp [hcolon, Piece.before]
    · by_cases hpoint : d = '.'
      · simp [hpoint, scanDecimal_stops h]
      · by_cases hx : d = 'x'
        · rcases ds with _ | ⟨e, _ | ⟨e', ds⟩⟩
          · simp [hx, Piece.before]
          · by_cases he : e = '0'
            · rw [hx, he]
              change (match (after ++ v).span fun c => (hexValue? c).isSome with
                | ([], _) => _
                | (hs, rest) => _) = Piece.before (match after.span fun c => (hexValue? c).isSome with
                | ([], _) => _
                | (hs, rest) => _) v
              rw [span_stops hhex]
              rcases after.span fun c => (hexValue? c).isSome with ⟨_ | _, _⟩ <;>
                simp only [Piece.before, List.append_eq, List.cons_append]
            · simp [hx, he, Piece.before]
          · simp [hx, Piece.before]
        · simp [hcolon, hpoint, hx, Piece.before]

theorem takeQuoted?_cons {d : Char} (hd : d ≠ '"') : takeQuoted? (d :: u) =
    (takeQuoted? u).map fun (inner, after) => (d :: inner, after) := by
  rw [takeQuoted?.eq_def]
  split
  · rename_i heq
    cases heq
  · rename_i heq
    cases heq
    exact absurd rfl hd
  · rename_i heq
    cases heq
    rfl

theorem takeQuoted?_closed {inner after : List Char} (h : takeQuoted? u = some (inner, after)) :
    takeQuoted? (u ++ v) = some (inner, after ++ v) := by
  induction u generalizing inner with
  | nil => cases h
  | cons d u ih =>
    by_cases hd : d = '"'
    · rw [hd] at h ⊢
      cases h
      rfl
    · rw [takeQuoted?_cons hd] at h
      obtain ⟨⟨inner', after'⟩, hu, hinner⟩ := Option.map_eq_some_iff.mp h
      cases hinner
      rw [List.cons_append, takeQuoted?_cons hd, ih hu]
      rfl

theorem takeQuoted?_open (h : takeQuoted? u = none) : takeQuoted? (u ++ v) = none ∨
    ∃ inner after, takeQuoted? (u ++ v) = some (inner, after) ∧ after.length < v.length := by
  induction u with
  | nil =>
    cases hv : takeQuoted? v with
    | none => exact .inl hv
    | some x =>
      refine .inr ⟨x.1, x.2, hv, ?_⟩
      rw [← takeQuoted?_parts hv, List.length_append, List.length_cons]
      omega
  | cons d u ih =>
    by_cases hd : d = '"'
    · rw [hd] at h
      cases h
    · rw [takeQuoted?_cons hd, Option.map_eq_none_iff] at h
      rw [List.cons_append, takeQuoted?_cons hd]
      rcases ih h with hu | ⟨inner, after, hu, hlength⟩
      · exact .inl (by rw [hu]; rfl)
      · exact .inr ⟨_, _, by rw [hu]; rfl, hlength⟩

theorem scanString_continues (h : Stops v) : Continues v (scanString u) (scanString (u ++ v)) := by
  unfold scanString
  cases hu : takeQuoted? u with
  | none =>
    refine .inr ⟨rfl, ?_⟩
    rcases takeQuoted?_open (v := v) hu with hv | ⟨inner, after, hv, hlength⟩
    · exact .inl (by rw [hv])
    · rw [hv]
      right
      split
      · rename_i heq
        cases heq
      · rename_i heq
        cases heq
        exact (Nat.lt_succ_self _).trans hlength
      · rename_i heq
        cases heq
        exact hlength
  | some x =>
    obtain ⟨inner, after⟩ := x
    rw [takeQuoted?_closed hu]
    refine .inl ?_
    cases after with
    | nil =>
      cases v with
      | nil => rfl
      | cons d v =>
        have hcolon : d ≠ ':' := fun hd => h.head_ne (d := ':') (by decide) (congrArg some hd)
        simp [hcolon, Piece.before]
    | cons d after =>
      by_cases hcolon : d = ':'
      · simp [hcolon, Piece.before]
      · simp [hcolon, Piece.before]

theorem scanRun_continues (h : Stops v) (run : List Char) :
    Continues v (scanRun run u) (scanRun run (u ++ v)) := by
  unfold scanRun
  split
  · by_cases hc : run = ['c']
    · subst hc
      cases u with
      | nil =>
        cases v with
        | nil => exact .inl rfl
        | cons d v =>
          have hquote : d ≠ '"' := fun hd => h.head_ne (d := '"') (by decide) (congrArg some hd)
          exact .inl (by simp [hquote, Piece.before])
      | cons d u =>
        by_cases hquote : d = '"'
        · subst hquote
          simp only [List.cons_append]
          cases hu : takeQuoted? u with
          | none =>
            refine .inr ⟨rfl, ?_⟩
            rcases takeQuoted?_open (v := v) hu with hv | ⟨inner, after, hv, hlength⟩
            · exact .inl (by rw [hv])
            · exact .inr (by rw [hv]; exact hlength)
          | some x =>
            rw [takeQuoted?_closed hu]
            exact .inl rfl
        · exact .inl (by simp [hquote, Piece.before])
    · refine .inl ?_
      rcases run with _ | ⟨i, _ | ⟨d, ds⟩⟩
      · simp [Piece.before]
      · simp [Piece.before] at hc ⊢
        simp [hc]
      · by_cases hi : i = 'i'
        · subst hi
          simp only [Piece.before]
          split <;> rfl
        · simp [hi, Piece.before]
  · refine .inl ?_
    dsimp only
    split
    · rfl
    · rename_i body _
      rcases takeDigits body with ⟨_ | ⟨d, ds⟩, _ | ⟨e, places⟩⟩
      · rfl
      · rfl
      · rfl
      · by_cases hpoint : e = '.'
        · subst hpoint
          change (if _ then _ else _) = Piece.before (if _ then _ else _) v
          rw [← List.append_assoc, scanDecimal_stops h]
          by_cases hlong : ('-' :: body).length ≤
              (scanDecimal ['-'] (d :: ds) (places ++ u)).text.length ∨
                isBareMark (takeDigits places).2 = true
          · rw [if_pos hlong]
            exact if_pos hlong
          · rw [if_neg hlong]
            exact if_neg hlong
        · simp [hpoint, Piece.before]
    · rfl

theorem scanWord_continues (h : Stops v) : Continues v (scanWord u) (scanWord (u ++ v)) := by
  unfold scanWord
  rw [span_stops (head_not_word h.apart)]
  rcases u.span isWordChar with ⟨run, _ | ⟨d, after⟩⟩
  · have hrun := scanRun_continues (u := []) h run
    rw [List.nil_append] at hrun ⊢
    cases v with
    | nil => exact hrun
    | cons d v =>
      have hcolon : d ≠ ':' := fun hd => h.head_ne (d := ':') (by decide) (congrArg some hd)
      simpa [hcolon] using hrun
  · by_cases hcolon : d = ':'
    · subst hcolon
      exact .inl rfl
    · have hrun := scanRun_continues (u := d :: after) h run
      simpa [hcolon] using hrun

section

variable (sigil : Char) (named : String → Token) (numbered : Nat → Token)

theorem scanSigil_stops (h : Stops v) (alone : Option Token) :
    scanSigil sigil named numbered alone (u ++ v) =
      (scanSigil sigil named numbered alone u).before v := by
  unfold scanSigil
  cases u with
  | nil =>
    cases v with
    | nil => rfl
    | cons d v =>
      have hword := head_not_word h.apart d rfl
      simp only [isWordChar, Bool.or_eq_false_iff] at hword
      have hdigit := head_not_digit h.apart d rfl
      simp [hword.1, hdigit, Piece.before]
  | cons d u =>
    simp only [List.cons_append]
    rw [← List.cons_append, span_stops (head_not_word h.apart), takeDigits_stops h]
    split
    · rfl
    · split <;> rfl

theorem scanSymbol_continues (h : Stops v) : Continues v (scanSymbol sigil named numbered u)
    (scanSymbol sigil named numbered (u ++ v)) := by
  by_cases hquote : ∃ body, u = '"' :: body
  · obtain ⟨body, rfl⟩ := hquote
    unfold scanSymbol
    simp only [List.cons_append]
    cases hu : takeQuoted? body with
    | none =>
      refine .inr ⟨rfl, ?_⟩
      rcases takeQuoted?_open (v := v) hu with hv | ⟨inner, after, hv, hlength⟩
      · exact .inl (by rw [hv])
      · exact .inr (by rw [hv]; exact hlength)
    | some x =>
      rw [takeQuoted?_closed hu]
      exact .inl rfl
  · have hplain : ∀ w, (∀ body, w ≠ '"' :: body) →
        scanSymbol sigil named numbered w = scanSigil sigil named numbered none w := by
      intro w hw
      unfold scanSymbol
      split
      · exact absurd rfl (hw _)
      · rfl
    have huv : ∀ body, u ++ v ≠ '"' :: body := by
      intro body heq
      cases u with
      | nil => exact h.head_ne (d := '"') (by decide) (congrArg List.head? heq)
      | cons d u =>
        cases heq
        exact hquote ⟨u, rfl⟩
    rw [hplain u fun body hu => hquote ⟨body, hu⟩, hplain _ huv]
    exact .inl (scanSigil_stops sigil named numbered h none)

end

theorem scanGroup_stops (h : Stops v) : scanGroup (u ++ v) = (scanGroup u).before v := by
  unfold scanGroup
  rw [takeDigits_stops h]
  rcases takeDigits u with ⟨_ | _, _⟩ <;> rfl

theorem scanPlus_stops (h : Stops v) : scanPlus (u ++ v) = (scanPlus u).before v := by
  unfold scanPlus
  rw [takeDigits_stops h]
  rcases takeDigits u with ⟨_ | ⟨d, ds⟩, _ | ⟨e, after⟩⟩
  · rfl
  · rfl
  · cases v with
    | nil => rfl
    | cons e v =>
      have hpoint : e ≠ '.' := fun hd => h.head_ne (d := '.') (by decide) (congrArg some hd)
      simp [hpoint, Piece.before]
  · by_cases hpoint : e = '.'
    · subst hpoint
      exact scanDecimal_stops h _ _
    · simp [hpoint, Piece.before]

theorem scan_continues (h : Stops v) : Continues v (scan c u) (scan c (u ++ v)) := by
  unfold scan
  split
  · exact scanSymbol_continues _ _ _ h
  · exact scanSymbol_continues _ _ _ h
  · exact .inl (scanSigil_stops _ _ _ h _)
  · exact .inl (scanGroup_stops h)
  · exact scanString_continues h
  · exact .inl (scanPlus_stops h)
  · split
    · exact .inl (scanNumber_stops (u := c :: u) h)
    · split
      · exact scanWord_continues (u := c :: u) h
      · exact .inl rfl

theorem scan_before {t : Token} (h : Stops v) (ht : (scan c u).token = some t) :
    scan c (u ++ v) = (scan c u).before v := by
  rcases scan_continues (c := c) (u := u) h with hq | ⟨hp, -⟩
  · exact hq
  · rw [hp] at ht
    cases ht

theorem scan_within {t : Token} (h : Stops v) (ht : (scan c (u ++ v)).token = some t)
    (hlength : v.length ≤ (scan c (u ++ v)).rest.length) :
    (scan c u).token = some t ∧ scan c (u ++ v) = (scan c u).before v := by
  rcases scan_continues (c := c) (u := u) h with hq | ⟨-, hq | hq⟩
  · rw [hq] at ht
    exact ⟨ht, hq⟩
  · rw [hq] at ht
    cases ht
  · exact absurd hlength (Nat.not_le.mpr hq)

theorem scan_rest_length (c : Char) (cs : List Char) : (scan c cs).rest.length ≤ cs.length := by
  have hparts := congrArg List.length (heads_scan c cs).parts
  have htaken := List.length_pos_iff.mpr (heads_scan c cs).taken
  rw [List.length_append, List.length_cons] at hparts
  omega

/-! ## 3. Texts and their lexemes -/

/-- From this line on, the text is cut into these lexemes. -/
inductive Cuts : Nat → List Char → List Lexeme → Prop
  | nil {line : Nat} : Cuts line [] []
  | blank {line : Nat} {c : Char} {cs : List Char} {xs : List Lexeme} (hb : isBlank c = true)
    (h : Cuts (if c = '\n' then line + 1 else line) cs xs) : Cuts line (c :: cs) xs
  | comment {line : Nat} {cs : List Char} {xs : List Lexeme}
    (h : Cuts line (cs.dropWhile (· ≠ '\n')) xs) : Cuts line (';' :: cs) xs
  | piece {line : Nat} {c : Char} {cs : List Char} {t : Token} {xs : List Lexeme}
    (hb : isBlank c = false) (hc : c ≠ ';') (ht : (scan c cs).token = some t)
    (h : Cuts (line + (scan c cs).text.count '\n') (scan c cs).rest xs) :
    Cuts line (c :: cs) (⟨t, line⟩ :: xs)

variable {line : Nat} {cs : List Char} {xs ys : List Lexeme}

theorem cuts_of_tokensFuel {fuel : Nat} : ∀ {line : Nat} {cs : List Char} {xs : List Lexeme},
    cs.length ≤ fuel → tokensFuel fuel line cs = .ok xs → Cuts line cs xs := by
  induction fuel with
  | zero =>
    intro line cs xs hlength h
    obtain rfl := List.length_eq_zero_iff.mp (Nat.le_zero.mp hlength)
    cases h
    exact .nil
  | succ fuel ih =>
    intro line cs xs hlength h
    cases cs with
    | nil =>
      cases h
      exact .nil
    | cons c cs =>
      have hcs : cs.length ≤ fuel := Nat.le_of_succ_le_succ hlength
      rw [tokensFuel] at h
      split at h
      · rename_i hb
        exact .blank hb (ih hcs h)
      · rename_i hb
        rw [Bool.not_eq_true] at hb
        split at h
        · rename_i hc
          subst hc
          exact .comment (ih ((List.dropWhile_suffix _).length_le.trans hcs) h)
        · rename_i hc
          dsimp only at h
          split at h
          · cases h
          · rename_i t ht
            obtain ⟨ys, hys, h⟩ := except_bind_ok.mp h
            cases h
            exact .piece hb hc ht (ih ((scan_rest_length c cs).trans hcs) hys)

theorem Cuts.tokensFuel (h : Cuts line cs xs) :
    ∀ {fuel}, cs.length ≤ fuel → tokensFuel fuel line cs = .ok xs := by
  induction h with
  | nil =>
    intro fuel _
    cases fuel <;> rfl
  | blank hb _ ih =>
    rintro (_ | fuel) hfuel
    · cases hfuel
    · rw [Assembly.tokensFuel, if_pos hb]
      exact ih (Nat.le_of_succ_le_succ hfuel)
  | comment _ ih =>
    rintro (_ | fuel) hfuel
    · cases hfuel
    · rw [Assembly.tokensFuel, if_neg (by decide), if_pos rfl]
      exact ih ((List.dropWhile_suffix _).length_le.trans (Nat.le_of_succ_le_succ hfuel))
  | piece hb hc ht _ ih =>
    rintro (_ | fuel) hfuel
    · cases hfuel
    · rw [Assembly.tokensFuel, if_neg (Bool.not_eq_true _ ▸ hb), if_neg hc]
      simp only [ht, ih ((scan_rest_length _ _).trans (Nat.le_of_succ_le_succ hfuel))]
      rfl

/-- Tokens are what a text is cut into. -/
theorem tokens_iff {source : String} : tokens source = .ok xs ↔ Cuts 1 source.toList xs :=
  ⟨cuts_of_tokensFuel (Nat.le_refl _), fun h => h.tokensFuel (Nat.le_refl _)⟩

theorem Cuts.of_scan {t : Token} {text rest : List Char} (hb : isBlank c = false) (hc : c ≠ ';')
    (h : scan c cs = ⟨some t, text, rest⟩) (hrest : Cuts (line + text.count '\n') rest xs) :
    Cuts line (c :: cs) (⟨t, line⟩ :: xs) := by
  refine .piece hb hc (by rw [h]) ?_
  rwa [h]

/-! ## 4. Further down -/

/-- The lexeme as it stands so many lines further down. -/
def Lexeme.moved (k : Nat) (x : Lexeme) : Lexeme :=
  ⟨x.token, x.line + k⟩

@[simp] theorem Lexeme.moved_zero : Lexeme.moved 0 = id := rfl

theorem Cuts.moved (h : Cuts line cs xs) (k : Nat) : Cuts (line + k) cs (xs.map (·.moved k)) := by
  induction h with
  | nil => exact .nil
  | @blank line c cs xs hb _ ih =>
    refine .blank hb ?_
    split at ih
    · rename_i hc
      rwa [if_pos hc, Nat.add_right_comm]
    · rename_i hc
      rwa [if_neg hc]
  | comment _ ih => exact .comment ih
  | piece hb hc ht _ ih =>
    rw [List.map_cons]
    refine .piece hb hc ht ?_
    rwa [Nat.add_right_comm]

/-! ## 5. Behind a line -/

theorem count_dropWhile_line (cs : List Char) :
    (cs.dropWhile (· ≠ '\n')).count '\n' = cs.count '\n' := by
  induction cs with
  | nil => rfl
  | cons c cs ih =>
    by_cases hc : c = '\n'
    · rw [hc]
      rfl
    · rw [List.dropWhile_cons_of_pos (by simpa using hc), ih, List.count_cons_of_ne hc]

theorem Cuts.before_line (h : Cuts line u xs) (hv : Cuts (line + u.count '\n') ('\n' :: v) ys) :
    Cuts line (u ++ '\n' :: v) (xs ++ ys) := by
  induction h with
  | nil => simpa using hv
  | @blank line c cs xs hb _ ih =>
    refine .blank hb (ih ?_)
    by_cases hc : c = '\n'
    · rw [if_pos hc]
      rw [hc, List.count_cons_self] at hv
      rwa [Nat.add_right_comm, Nat.add_assoc]
    · rw [if_neg hc]
      rwa [List.count_cons_of_ne hc] at hv
  | @comment line cs xs _ ih =>
    refine .comment ?_
    have hdrop : (cs ++ '\n' :: v).dropWhile (· ≠ '\n') = cs.dropWhile (· ≠ '\n') ++ '\n' :: v := by
      cases hcs : cs.dropWhile (· ≠ '\n') <;> simp_all [List.dropWhile_append]
    rw [List.append_eq, hdrop]
    exact ih (by rwa [count_dropWhile_line, ← List.count_cons_of_ne (by decide : ';' ≠ '\n')])
  | @piece line c cs t xs hb hc ht _ ih =>
    have hbefore := scan_before (v := '\n' :: v) (stops_of_head (by decide)) ht
    rw [← (heads_scan c cs).parts, List.count_append] at hv
    refine .of_scan hb hc (hbefore.trans (by rw [Piece.before, ht])) (ih ?_)
    rwa [Nat.add_assoc]

theorem tokens_lines {a b : String} (ha : tokens a = .ok xs) (hb : tokens b = .ok ys) :
    tokens (a ++ "\n" ++ b) = .ok (xs ++ ys.map (·.moved (a.toList.count '\n' + 1))) := by
  rw [tokens_iff] at ha hb ⊢
  rw [String.toList_append, String.toList_append, List.append_assoc]
  refine ha.before_line (.blank rfl ?_)
  rw [if_pos rfl, Nat.add_assoc]
  exact hb.moved _

/-! ## 6. Behind a parenthesis -/

/-- The piece is no closing parenthesis. -/
def Piece.IsOther (p : Piece) : Prop := p.token ≠ some .rightParen

theorem isOther_scanDecimal (sign whole rest : List Char) :
    (scanDecimal sign whole rest).IsOther := by
  simp [Piece.IsOther, scanDecimal]

theorem isOther_scanNumber (cs : List Char) : (scanNumber cs).IsOther := by
  unfold scanNumber
  split
  · simp [Piece.IsOther]
  · exact isOther_scanDecimal _ _ _
  · repeat' split
    all_goals simp [Piece.IsOther]

theorem isOther_scanRun (run after : List Char) : (scanRun run after).IsOther := by
  unfold scanRun
  split
  · repeat' split
    all_goals simp [Piece.IsOther]
  · dsimp only
    repeat' split
    all_goals first
      | exact isOther_scanDecimal _ _ _
      | simp [Piece.IsOther]

theorem isOther_scanWord (cs : List Char) : (scanWord cs).IsOther := by
  unfold scanWord
  split
  · simp [Piece.IsOther]
  · exact isOther_scanRun _ _

theorem isOther_scanSigil {sigil : Char} {named : String → Token} {numbered : Nat → Token}
    {alone : Option Token} (hnamed : ∀ s, named s ≠ .rightParen)
    (hnumbered : ∀ n, numbered n ≠ .rightParen) (halone : alone ≠ some .rightParen)
    (cs : List Char) : (scanSigil sigil named numbered alone cs).IsOther := by
  unfold scanSigil
  repeat' split
  all_goals simp [Piece.IsOther, hnamed, hnumbered, halone]

theorem isOther_scanSymbol {sigil : Char} {named : String → Token} {numbered : Nat → Token}
    (hnamed : ∀ s, named s ≠ .rightParen) (hnumbered : ∀ n, numbered n ≠ .rightParen)
    (cs : List Char) : (scanSymbol sigil named numbered cs).IsOther := by
  unfold scanSymbol
  split
  · split <;> simp [Piece.IsOther, hnamed]
  · exact isOther_scanSigil hnamed hnumbered (by simp) _

theorem isOther_scanString (cs : List Char) : (scanString cs).IsOther := by
  unfold scanString
  split <;> simp [Piece.IsOther]

theorem isOther_scanGroup (cs : List Char) : (scanGroup cs).IsOther := by
  unfold scanGroup
  split <;> simp [Piece.IsOther]

theorem isOther_scanPlus (cs : List Char) : (scanPlus cs).IsOther := by
  unfold scanPlus
  split
  · simp [Piece.IsOther]
  · exact isOther_scanDecimal _ _ _
  · simp [Piece.IsOther]

theorem eq_of_scan_rightParen (h : (scan c cs).token = some .rightParen) : c = ')' := by
  unfold scan at h
  split at h
  · exact absurd h (isOther_scanSymbol (by simp) (by simp) cs)
  · exact absurd h (isOther_scanSymbol (by simp) (by simp) cs)
  · exact absurd h (isOther_scanSigil (by simp) (by simp) (by simp) cs)
  · exact absurd h (isOther_scanGroup cs)
  · exact absurd h (isOther_scanString cs)
  · exact absurd h (isOther_scanPlus cs)
  · split at h
    · exact absurd h (isOther_scanNumber _)
    · split at h
      · exact absurd h (isOther_scanWord _)
      · dsimp only [punctuation?] at h
        split at h <;> first
          | rfl
          | cases h

theorem scan_rightParen (cs : List Char) : scan ')' cs = ⟨some .rightParen, [')'], cs⟩ := rfl

/-- What stands behind a closing parenthesis can be replaced. -/
theorem Cuts.split {zs : List Lexeme} (h : Cuts line cs zs) :
    ∀ {xs ys : List Lexeme} {l : Nat}, zs = xs ++ ⟨.rightParen, l⟩ :: ys →
      ∃ u v, cs = u ++ ')' :: v ∧ Cuts l v ys ∧ ∀ v' ys', Cuts l v' ys' →
        Cuts line (u ++ ')' :: v') (xs ++ ⟨.rightParen, l⟩ :: ys') := by
  induction h with
  | nil =>
    intro xs ys l heq
    exact absurd heq (by simp)
  | @blank line c cs zs hb _ ih =>
    intro xs ys l heq
    obtain ⟨u, v, rfl, hv, hbehind⟩ := ih heq
    exact ⟨c :: u, v, rfl, hv, fun v' ys' hv' => .blank hb (hbehind v' ys' hv')⟩
  | @comment line cs zs _ ih =>
    intro xs ys l heq
    obtain ⟨u, v, hcs, hv, hbehind⟩ := ih heq
    refine ⟨';' :: (cs.takeWhile (· ≠ '\n') ++ u), v, ?_, hv, fun v' ys' hv' => .comment ?_⟩
    · rw [List.cons_append, List.append_assoc, ← hcs, List.takeWhile_append_dropWhile]
    · -- The comment ends in front of the parenthesis, at the end of a line.
      have hline : ∀ d ∈ (cs.dropWhile (· ≠ '\n')).head?, d = '\n' := by
        intro d hd
        have := List.head?_dropWhile_not (· ≠ '\n') cs
        rw [hd] at this
        simpa using this
      have hu : (u ++ ')' :: v').dropWhile (· ≠ '\n') = u ++ ')' :: v' := by
        rw [hcs] at hline
        cases u with
        | nil => exact absurd (hline ')' rfl) (by decide)
        | cons d u =>
          rw [hline d rfl]
          rfl
      have hdrop : ((cs.takeWhile (· ≠ '\n') ++ u) ++ ')' :: v').dropWhile (· ≠ '\n') =
          u ++ ')' :: v' := by
        rw [List.append_assoc, List.dropWhile_append_of_pos (fun d => List.mem_takeWhile_imp), hu]
      rw [List.append_eq, hdrop]
      exact hbehind v' ys' hv'
  | @piece line c cs t zs hb hc ht hzs ih =>
    intro xs ys l heq
    cases xs with
    | nil =>
      cases heq
      obtain rfl := eq_of_scan_rightParen ht
      exact ⟨[], cs, rfl, by rwa [scan_rightParen] at hzs,
        fun v' ys' hv' => .of_scan hb hc (scan_rightParen v') hv'⟩
    | cons x xs =>
      cases heq
      obtain ⟨u, v, hrest, hv, hbehind⟩ := ih rfl
      obtain ⟨text, htext⟩ : ∃ text, (scan c cs).text = c :: text := by
        obtain ⟨d, text, htext⟩ := List.exists_cons_of_ne_nil (heads_scan c cs).taken
        have hparts := (heads_scan c cs).parts
        rw [htext] at hparts
        exact ⟨text, by rw [htext, (List.cons_eq_cons.mp hparts).1]⟩
      have hcs : cs = (text ++ u) ++ ')' :: v := by
        have hparts := (heads_scan c cs).parts
        rw [htext, hrest] at hparts
        rw [List.append_assoc]
        exact (List.cons_eq_cons.mp hparts).2.symm
      have hstops : ∀ w, Stops (')' :: w) := fun w => stops_of_head (by decide)
      obtain ⟨ht', hbefore⟩ := scan_within (hstops v) (hcs ▸ ht) (by
        rw [← hcs, hrest, List.length_append]
        exact Nat.le_add_left _ _)
      rw [← hcs] at hbefore
      have hu : (scan c (text ++ u)).rest = u := by
        rw [hbefore] at hrest
        exact List.append_cancel_right hrest
      have htext' : (scan c (text ++ u)).text = c :: text := by
        rw [← htext, hbefore]
        rfl
      refine ⟨c :: (text ++ u), v, by rw [hcs]; rfl, hv, fun v' ys' hv' => ?_⟩
      refine .of_scan hb hc ((scan_before (hstops v') ht').trans ?_) (hbehind v' ys' hv')
      rw [Piece.before, ht', hu, htext', htext]

end QirProfile.Assembly
