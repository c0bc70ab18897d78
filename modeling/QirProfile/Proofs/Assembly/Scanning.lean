import QirProfile.Proofs.Assembly.Lexing
import QirProfile.Proofs.Steps

/-!
# What a text is cut into

A piece is a head of the text: its characters and what follows them are the text again, and it takes
at least one character. A number that does not fit its token makes no token, so that the numbers of
tokens are in range.
-/

namespace QirProfile.Assembly

open Text

/-! ## 1. Numbers of tokens -/

/-- The number of a token is one of its type: 32 bits for handles and widths, 128 bits with a sign
    for integers. -/
def Token.InRange : Token → Prop
  | localId n | globalId n | groupId n | metadataId n | labelId n | intType n => n < span 32
  | integer v => -(span 127 : Int) ≤ v ∧ v < span 127
  | _ => True

theorem lt_of_fits32? {n m : Nat} (h : fits32? n = some m) : m < span 32 := by
  unfold fits32? at h
  split at h
  · cases h
    assumption
  · cases h

theorem range_of_fits128? {n m : Int} (h : fits128? n = some m) :
    -(span 127 : Int) ≤ m ∧ m < span 127 := by
  unfold fits128? at h
  split at h
  · cases h
    assumption
  · cases h

/-- Every token that there is has its number in range. -/
def AllInRange (t? : Option Token) : Prop := ∀ t ∈ t?, t.InRange

theorem allInRange_none : AllInRange none := nofun

theorem allInRange_some {t : Token} (h : t.InRange) : AllInRange (some t) :=
  fun _ hu => Option.some.inj hu ▸ h

theorem allInRange_fits32? {make : Nat → Token} (hmake : ∀ n < span 32, (make n).InRange)
    (n : Nat) : AllInRange ((fits32? n).map make) := by
  intro t ht
  obtain ⟨m, hm, rfl⟩ := Option.map_eq_some_iff.mp ht
  exact hmake m (lt_of_fits32? hm)

theorem allInRange_fits128? (n : Int) : AllInRange ((fits128? n).map .integer) := by
  intro t ht
  obtain ⟨m, hm, rfl⟩ := Option.map_eq_some_iff.mp ht
  exact range_of_fits128? hm

/-! ## 2. Pieces -/

/-- The piece is a head of the text, and its number is in range. -/
structure Piece.Heads (piece : Piece) (cs : List Char) : Prop where
  parts : piece.text ++ piece.rest = cs
  taken : piece.text ≠ []
  token : AllInRange piece.token

section

variable {c : Char} {cs inner after : List Char}

theorem span_parts {p : Char → Bool} {run : List Char} (h : cs.span p = (run, after)) :
    run ++ after = cs := by
  rw [List.span_eq_takeWhile_dropWhile, Prod.mk.injEq] at h
  rw [← h.1, ← h.2, List.takeWhile_append_dropWhile]

theorem span_ne_nil {p : Char → Bool} {run : List Char} (hc : p c = true)
    (h : (c :: cs).span p = (run, after)) : run ≠ [] := by
  rw [List.span_eq_takeWhile_dropWhile, Prod.mk.injEq, List.takeWhile_cons_of_pos hc] at h
  rw [← h.1]
  exact List.cons_ne_nil _ _

theorem takeQuoted?_parts : ∀ {cs inner : List Char}, takeQuoted? cs = some (inner, after) →
    inner ++ '"' :: after = cs := by
  intro cs
  induction cs with
  | nil =>
    intro inner h
    cases h
  | cons d cs ih =>
    intro inner h
    rw [takeQuoted?.eq_def] at h
    split at h
    · cases h
    · rename_i heq
      cases heq
      cases h
      rfl
    · rename_i heq
      cases heq
      obtain ⟨⟨inner', after'⟩, hcs, hinner⟩ := Option.map_eq_some_iff.mp h
      cases hinner
      rw [List.cons_append, ih hcs]

theorem takeExponent?_parts {mark : List Char} {n : Int}
    (h : takeExponent? cs = some (mark, n, after)) : mark ++ after = cs := by
  unfold takeExponent? at h
  split at h
  · split at h
    · dsimp only at h
      split at h
      · cases h
      · rename_i ds after' hdigits
        cases h
        have hbody := span_parts hdigits
        split at hbody <;> simpa using hbody
    · cases h
  · cases h

theorem heads_mk {token : Option Token} {text rest : List Char} (hparts : text ++ rest = cs)
    (htaken : text ≠ []) (htoken : AllInRange token) : (Piece.mk token text rest).Heads cs :=
  ⟨hparts, htaken, htoken⟩

theorem heads_scanDecimal (sign whole rest : List Char) :
    (scanDecimal sign whole rest).Heads (sign ++ whole ++ '.' :: rest) := by
  unfold scanDecimal
  split
  rename_i places after hplaces
  have hrest := span_parts hplaces
  cases hexponent : takeExponent? after with
  | none => exact heads_mk (by simp [← hrest]) (by simp) (allInRange_some trivial)
  | some x =>
    obtain ⟨mark, n, behind⟩ := x
    have hafter := takeExponent?_parts hexponent
    exact heads_mk (by simp [← hrest, ← hafter]) (by simp) (allInRange_some trivial)

theorem heads_scanNumber (hc : c.isDigit = true) : (scanNumber (c :: cs)).Heads (c :: cs) := by
  unfold scanNumber
  split
  · rename_i ds after hdigits
    exact heads_mk (by simp [← span_parts hdigits]) (by simp) (allInRange_fits32? (fun _ => id) _)
  · rename_i ds after hdigits
    rw [← span_parts hdigits]
    exact heads_scanDecimal [] ds after
  · rename_i ds after _ _ hdigits
    have hparts := span_parts hdigits
    have hne := span_ne_nil hc hdigits
    dsimp only
    split
    · rename_i body _
      split
      · exact heads_mk hparts hne (allInRange_fits128? _)
      · rename_i hs rest _ hhex
        have hbody := span_parts hhex
        refine heads_mk (by rw [← hparts, ← hbody]; rfl) (by simp) ?_
        split
        · exact allInRange_some trivial
        · exact allInRange_none
    · exact heads_mk hparts hne (allInRange_fits128? _)

theorem heads_scanString (cs : List Char) : (scanString cs).Heads ('"' :: cs) := by
  unfold scanString
  split
  · exact heads_mk (by simp) (by simp) allInRange_none
  · rename_i inner after hquoted
    exact heads_mk (by simp [← takeQuoted?_parts hquoted]) (by simp) (allInRange_some trivial)
  · rename_i inner after _ hquoted
    exact heads_mk (by simp [← takeQuoted?_parts hquoted]) (by simp) (allInRange_some trivial)

theorem heads_scanRun {run : List Char} (hrun : run ≠ []) (after : List Char) :
    (scanRun run after).Heads (run ++ after) := by
  unfold scanRun
  split
  · split
    · split
      · rename_i body inner rest hquoted
        exact heads_mk (by simp [← takeQuoted?_parts hquoted]) (by simp) (allInRange_some trivial)
      · exact heads_mk (by simp) (by simp) allInRange_none
    · split
      · exact heads_mk rfl hrun (allInRange_fits32? (fun _ => id) _)
      · exact heads_mk rfl hrun (allInRange_some trivial)
    · exact heads_mk rfl hrun (allInRange_some trivial)
  · have hrefused : (Piece.mk none run after).Heads (run ++ after) :=
      heads_mk rfl hrun allInRange_none
    dsimp only
    split
    · exact heads_mk rfl hrun (allInRange_some trivial)
    · rename_i body
      split
      · exact hrefused
      · exact heads_mk rfl hrun (allInRange_fits128? _)
      · rename_i ds places _ hdigits
        split
        · rw [← span_parts hdigits]
          simpa using heads_scanDecimal ['-'] ds (places ++ after)
        · exact hrefused
      · exact hrefused
    · exact hrefused

theorem heads_scanWord (hc : isWordStart c = true) : (scanWord (c :: cs)).Heads (c :: cs) := by
  have hword : isWordChar c = true := by simp [isWordChar, hc]
  unfold scanWord
  split
  · rename_i run after hspan
    exact heads_mk (by simp [← span_parts hspan]) (by simp) (allInRange_some trivial)
  · rename_i run after _ hspan
    rw [← span_parts hspan]
    exact heads_scanRun (span_ne_nil hword hspan) after

section

variable (named : String → Token) (numbered : Nat → Token) (hnamed : ∀ s, (named s).InRange)
  (hnumbered : ∀ n < span 32, (numbered n).InRange) (sigil : Char)
include hnamed hnumbered

theorem heads_scanSigil {alone : Option Token} (halone : AllInRange alone) (cs : List Char) :
    (scanSigil sigil named numbered alone cs).Heads (sigil :: cs) := by
  unfold scanSigil
  split
  · split
    · split
      rename_i run after hspan
      exact heads_mk (by simp [← span_parts hspan]) (by simp) (allInRange_some (hnamed _))
    · split
      · split
        rename_i ds after hdigits
        exact heads_mk (by simp [← span_parts hdigits]) (by simp) (allInRange_fits32? hnumbered _)
      · exact heads_mk rfl (by simp) halone
  · exact heads_mk rfl (by simp) halone

theorem heads_scanSymbol (cs : List Char) :
    (scanSymbol sigil named numbered cs).Heads (sigil :: cs) := by
  unfold scanSymbol
  split
  · split
    · rename_i inner after hquoted
      exact heads_mk (by simp [← takeQuoted?_parts hquoted]) (by simp) (allInRange_some (hnamed _))
    · exact heads_mk (by simp) (by simp) allInRange_none
  · exact heads_scanSigil named numbered hnamed hnumbered sigil allInRange_none cs

end

theorem heads_scanGroup (cs : List Char) : (scanGroup cs).Heads ('#' :: cs) := by
  unfold scanGroup
  split
  · exact heads_mk rfl (by simp) allInRange_none
  · rename_i ds after _ hdigits
    exact heads_mk (by simp [← span_parts hdigits]) (by simp) (allInRange_fits32? (fun _ => id) _)

theorem heads_scanPlus (cs : List Char) : (scanPlus cs).Heads ('+' :: cs) := by
  unfold scanPlus
  split
  · exact heads_mk rfl (by simp) allInRange_none
  · rename_i ds after _ hdigits
    rw [← span_parts hdigits]
    exact heads_scanDecimal ['+'] ds after
  · rename_i ds after _ _ hdigits
    exact heads_mk (by simp [← span_parts hdigits]) (by simp) allInRange_none

theorem allInRange_punctuation? (c : Char) : AllInRange (punctuation? c) := by
  intro t ht
  unfold punctuation? at ht
  split at ht <;> cases ht <;> trivial

theorem heads_scan (c : Char) (cs : List Char) : (scan c cs).Heads (c :: cs) := by
  unfold scan
  split
  · exact heads_scanSymbol Token.localName Token.localId
      (fun _ => trivial) (fun _ => id) '%' cs
  · exact heads_scanSymbol Token.globalName Token.globalId
      (fun _ => trivial) (fun _ => id) '@' cs
  · exact heads_scanSigil Token.metadataName Token.metadataId
      (fun _ => trivial) (fun _ => id) '!' (allInRange_some (t := .exclaim) trivial) cs
  · exact heads_scanGroup cs
  · exact heads_scanString cs
  · exact heads_scanPlus cs
  · split
    · rename_i hc
      exact heads_scanNumber hc
    · split
      · rename_i hc
        exact heads_scanWord hc
      · exact heads_mk rfl (by simp) (allInRange_punctuation? c)

end

/-! ## 3. Texts -/

theorem tokensFuel_bounded {fuel : Nat} : ∀ {line : Nat} {cs : List Char} {xs : List Lexeme},
    tokensFuel fuel line cs = .ok xs → xs.length ≤ cs.length ∧
      ∀ x ∈ xs, x.token.InRange ∧ x.line ≤ line + cs.count '\n' := by
  induction fuel with
  | zero =>
    intro line cs xs h
    cases h
    simp
  | succ fuel ih =>
    intro line cs xs h
    cases cs with
    | nil =>
      cases h
      simp
    | cons c cs =>
      rw [tokensFuel] at h
      split at h
      · obtain ⟨hlength, hxs⟩ := ih h
        refine ⟨Nat.le_succ_of_le hlength, fun x hx => ⟨(hxs x hx).1, ?_⟩⟩
        have hline := (hxs x hx).2
        by_cases hc : c = '\n'
        · rw [if_pos hc] at hline
          rw [hc, List.count_cons_self]
          omega
        · rw [if_neg hc] at hline
          rw [List.count_cons_of_ne hc]
          exact hline
      · split at h
        · obtain ⟨hlength, hxs⟩ := ih h
          have hsuffix : cs.dropWhile (· ≠ '\n') <:+ c :: cs :=
            (List.dropWhile_suffix _).trans (List.suffix_cons c cs)
          refine ⟨hlength.trans hsuffix.length_le, fun x hx => ⟨(hxs x hx).1, ?_⟩⟩
          exact (hxs x hx).2.trans (Nat.add_le_add_left (hsuffix.sublist.count_le _) _)
        · dsimp only at h
          split at h
          · cases h
          · rename_i t ht
            obtain ⟨rest, hrest, h⟩ := except_bind_ok.mp h
            cases h
            have hheads := heads_scan c cs
            obtain ⟨hlength, hxs⟩ := ih hrest
            have htaken : 0 < (scan c cs).text.length := List.length_pos_iff.mpr hheads.taken
            rw [← hheads.parts, List.length_append, List.count_append]
            refine ⟨by simp only [List.length_cons]; omega, List.forall_mem_cons.mpr ⟨?_, ?_⟩⟩
            · exact ⟨hheads.token t ht, Nat.le_add_right _ _⟩
            · exact fun x hx => ⟨(hxs x hx).1, by have := (hxs x hx).2; omega⟩

theorem tokensFuel_enough {n : Nat} : ∀ {m line : Nat} {cs : List Char}, cs.length ≤ n →
    cs.length ≤ m → tokensFuel n line cs = tokensFuel m line cs := by
  induction n with
  | zero =>
    intro m line cs hn hm
    obtain rfl := List.length_eq_zero_iff.mp (Nat.le_zero.mp hn)
    cases m <;> rfl
  | succ n ih =>
    intro m line cs hn hm
    cases cs with
    | nil => cases m <;> rfl
    | cons c cs =>
      obtain ⟨m, rfl⟩ : ∃ k, m = k + 1 := ⟨m - 1, by simp only [List.length_cons] at hm; omega⟩
      have hcn : cs.length ≤ n := Nat.le_of_succ_le_succ hn
      have hcm : cs.length ≤ m := Nat.le_of_succ_le_succ hm
      -- What is left behind a comment or a piece is no longer than what is behind one character.
      have hcomment := (List.dropWhile_suffix (· ≠ '\n') (l := cs)).length_le
      have hheads := heads_scan c cs
      have hrest : (scan c cs).rest.length ≤ cs.length := by
        have hparts := congrArg List.length hheads.parts
        have htaken := List.length_pos_iff.mpr hheads.taken
        rw [List.length_append, List.length_cons] at hparts
        omega
      rw [tokensFuel, tokensFuel, ih hcn hcm, ih (hcomment.trans hcn) (hcomment.trans hcm)]
      simp only [ih (hrest.trans hcn) (hrest.trans hcm)]

/-- There are no more tokens than characters, all are in range, and no line is behind the last one.
    -/
theorem tokens_bounded {source : String} {xs : List Lexeme} (h : tokens source = .ok xs) :
    xs.length ≤ source.length ∧
      ∀ x ∈ xs, x.token.InRange ∧ x.line ≤ 1 + source.toList.count '\n' := by
  rw [← String.length_toList]
  exact tokensFuel_bounded h

end QirProfile.Assembly
