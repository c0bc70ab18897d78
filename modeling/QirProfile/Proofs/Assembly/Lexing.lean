import Mathlib.Algebra.Group.Nat.Defs
import Mathlib.Data.List.TakeDrop
import Mathlib.Data.List.TakeWhile
import QirProfile.Assembly.Scan
import QirProfile.Assembly.Tree
import QirProfile.Proofs.Text.Quoting

/-!
# Which text is read as which tokens

`Lexes cs ts` says that the characters `cs` are read as the tokens `ts`. A text is taken apart from
its head: a blank is passed over, and a piece in front of a text that keeps apart from it (`Apart`:
the next character cannot belong to the piece) is one token. There is one lemma for each kind of
piece that programs are written with.
-/

namespace QirProfile.Assembly

open Text

variable {run ds : List Char} {n : Nat} {s : Symbol}

/-! ## 1. Texts and their tokens -/

/-- The characters are read as these tokens, whatever line they start on. -/
def Lexes (cs : List Char) (ts : List Token) : Prop :=
  ∀ fuel line, cs.length ≤ fuel → ∃ xs, tokensFuel fuel line cs = .ok xs ∧ xs.map (·.token) = ts

/-- A character that belongs to no word, number or name in front of it. -/
def isApart (c : Char) : Bool :=
  !isWordChar c && c != ':' && c != '"'

/-- The text does not go on with what stands in front of it. -/
def Apart : List Char → Prop
  | [] => True
  | c :: _ => isApart c = true

variable {c : Char} {cs rest : List Char} {t : Token} {ts us : List Token}

theorem lexes_nil : Lexes [] [] := by
  intro fuel line _
  cases fuel <;> exact ⟨[], rfl, rfl⟩

theorem lexes_blank (h : isBlank c = true) (hr : Lexes cs ts) : Lexes (c :: cs) ts := by
  intro fuel line hle
  cases fuel with
  | zero => simp at hle
  | succ fuel =>
    obtain ⟨xs, hxs, hts⟩ := hr fuel (if c = '\n' then line + 1 else line)
      (by simpa using hle)
    exact ⟨xs, by simp only [tokensFuel, h, if_true, hxs], hts⟩

theorem lexes_comment {text : List Char} (htext : '\n' ∉ text) (hr : Lexes ('\n' :: cs) ts) :
    Lexes (';' :: text ++ '\n' :: cs) ts := by
  intro fuel line hle
  cases fuel with
  | zero => simp at hle
  | succ fuel =>
    simp only [List.cons_append, List.length_cons, List.length_append] at hle
    obtain ⟨xs, hxs, hts⟩ := hr fuel line (by simp only [List.length_cons]; omega)
    have hdrop : (text ++ '\n' :: cs).dropWhile (· ≠ '\n') = '\n' :: cs := by
      rw [List.dropWhile_append_of_pos]
      · rfl
      · intro d hd
        simp only [ne_eq, decide_not, Bool.not_eq_eq_eq_not, Bool.not_true, decide_eq_false_iff_not]
        rintro rfl
        exact htext hd
    refine ⟨xs, ?_, hts⟩
    simp only [List.cons_append, tokensFuel]
    rw [if_neg (by decide), if_pos trivial, hdrop, hxs]

theorem lexes_scan {text : List Char} (hb : isBlank c = false) (hc : c ≠ ';')
    (h : scan c cs = ⟨some t, text, rest⟩) (hlen : rest.length ≤ cs.length)
    (hr : Lexes rest ts) : Lexes (c :: cs) (t :: ts) := by
  intro fuel line hle
  cases fuel with
  | zero => simp at hle
  | succ fuel =>
    obtain ⟨xs, hxs, hts⟩ := hr fuel (line + text.count '\n')
      (by simp only [List.length_cons] at hle; omega)
    refine ⟨⟨t, line⟩ :: xs, ?_, by rw [List.map_cons, hts]⟩
    simp only [tokensFuel, hb, Bool.false_eq_true, if_false, if_neg hc, h, hxs]
    rfl

/-! ## 2. Runs of characters -/

theorem isApart_facts (h : isApart c = true) :
    isWordChar c = false ∧ c.isDigit = false ∧ c ≠ ':' ∧ c ≠ '"' ∧ c ≠ '.' ∧ c ≠ 'x' := by
  simp only [isApart, Bool.and_eq_true, Bool.not_eq_true', bne_iff_ne] at h
  obtain ⟨⟨hword, hcolon⟩, hquote⟩ := h
  have hdigit : c.isDigit = false := by
    simp only [isWordChar, Bool.or_eq_false_iff] at hword
    exact hword.2
  refine ⟨hword, hdigit, hcolon, hquote, ?_, ?_⟩
  · rintro rfl
    exact absurd hword (by decide)
  · rintro rfl
    exact absurd hword (by decide)

theorem span_append {p : Char → Bool} (hrun : ∀ d ∈ run, p d = true)
    (hrest : ∀ d ∈ rest.head?, p d = false) : (run ++ rest).span p = (run, rest) := by
  rw [List.span_eq_takeWhile_dropWhile, List.takeWhile_append_of_pos hrun,
    List.dropWhile_append_of_pos hrun]
  cases rest with
  | nil => simp
  | cons d rest =>
    have hd : p d = false := hrest d rfl
    simp [hd]

theorem head_not_word (h : Apart rest) : ∀ d ∈ rest.head?, isWordChar d = false := by
  cases rest with
  | nil => simp
  | cons d rest =>
    intro e he
    cases he
    exact (isApart_facts h).1

theorem head_not_digit (h : Apart rest) : ∀ d ∈ rest.head?, d.isDigit = false := by
  cases rest with
  | nil => simp
  | cons d rest =>
    intro e he
    cases he
    exact (isApart_facts h).2.1

theorem takeDigits_append (hds : ∀ d ∈ ds, d.isDigit = true) (h : Apart rest) :
    takeDigits (ds ++ rest) = (ds, rest) :=
  span_append hds (head_not_digit h)

theorem takeQuoted?_append {inner : List Char} (h : '"' ∉ inner) :
    takeQuoted? (inner ++ '"' :: rest) = some (inner, rest) := by
  induction inner with
  | nil => rfl
  | cons d inner ih =>
    rw [List.mem_cons, not_or] at h
    rw [List.cons_append, takeQuoted?.eq_def]
    split
    · rename_i heq
      cases heq
    · rename_i heq
      cases heq
      exact absurd rfl h.1
    · rename_i heq
      cases heq
      rw [ih h.2]
      rfl

/-! ## 3. Where a piece goes -/

theorem scan_digit (h : c.isDigit = true) : scan c cs = scanNumber (c :: cs) := by
  unfold scan
  split <;> first
    | exact absurd h (by decide)
    | rw [if_pos h]

theorem isAlpha_eq (c : Char) : c.isAlpha = (c.isUpper || c.isLower) := rfl

theorem isUpper_iff (c : Char) : c.isUpper = true ↔ 'A'.val ≤ c.val ∧ c.val ≤ 'Z'.val :=
  decide_eq_true_iff

theorem isLower_iff (c : Char) : c.isLower = true ↔ 'a'.val ≤ c.val ∧ c.val ≤ 'z'.val := by
  rw [← decide_eq_true_iff (p := 'a'.val ≤ c.val), ← decide_eq_true_iff (p := c.val ≤ 'z'.val)]
  exact Bool.and_eq_true_iff

theorem isDigit_of_wordStart (h : isWordStart c = true) : c.isDigit = false := by
  by_contra hd
  simp only [Bool.not_eq_false] at hd
  simp only [isWordStart, isAlpha_eq, Bool.or_eq_true, isUpper_iff, isLower_iff, beq_iff_eq] at h
  simp only [Char.isDigit, Bool.and_eq_true, decide_eq_true_eq] at hd
  have hnine := UInt32.le_iff_toNat_le.mp hd.2
  have h9 : ('9' : Char).val.toNat = 57 := rfl
  have hA : ('A' : Char).val.toNat = 65 := rfl
  have ha : ('a' : Char).val.toNat = 97 := rfl
  rcases h with ((((h | h) | h) | h) | h) | h
  · have := UInt32.le_iff_toNat_le.mp h.1
    omega
  · have := UInt32.le_iff_toNat_le.mp h.1
    omega
  all_goals
    subst h
    exact absurd hd (by decide)

theorem scan_wordStart (h : isWordStart c = true) : scan c cs = scanWord (c :: cs) := by
  unfold scan
  split <;> first
    | exact absurd h (by decide)
    | rw [isDigit_of_wordStart h, if_neg Bool.false_ne_true, if_pos h]

theorem not_blank_of {f : Char → Bool} (hf : [' ', '\t', '\r', '\n', ';'].any f = false)
    (h : f c = true) : isBlank c = false ∧ c ≠ ';' := by
  have hnot : c ∉ [' ', '\t', '\r', '\n', ';'] := fun hc => List.any_eq_false.mp hf c hc h
  simp only [List.mem_cons, List.not_mem_nil, or_false, not_or] at hnot
  obtain ⟨hspace, htab, hreturn, hline, hsemicolon⟩ := hnot
  exact ⟨by simp [isBlank, hspace, htab, hreturn, hline], hsemicolon⟩

theorem not_blank_of_digit (h : c.isDigit = true) : isBlank c = false ∧ c ≠ ';' :=
  not_blank_of (by decide) h

theorem not_blank_of_wordStart (h : isWordStart c = true) : isBlank c = false ∧ c ≠ ';' :=
  not_blank_of (by decide) h

/-! ## 4. Marks, words and fixed text -/

theorem lexes_mark (h : punctuation? c = some t) (hr : Lexes cs ts) : Lexes (c :: cs) (t :: ts) := by
  have hscan : isBlank c = false ∧ c ≠ ';' ∧ scan c cs = ⟨some t, [c], cs⟩ := by
    unfold punctuation? at h
    split at h <;> cases h <;> exact ⟨rfl, by decide, rfl⟩
  exact lexes_scan hscan.1 hscan.2.1 hscan.2.2 (Nat.le_refl _) hr

/-- Whether a run reads as an integer type. -/
def isIntTypeRun : List Char → Bool
  | 'i' :: d :: ds => (d :: ds).all Char.isDigit
  | _ => false

/-- Whether a run is read as a keyword. -/
def isWord (run : List Char) : Bool :=
  isKeywordRun run && !isIntTypeRun run

theorem isWordChar_of_keyword (h : isKeywordRun cs = true) :
    ∃ d ds, cs = d :: ds ∧ isWordStart d = true ∧ ∀ e ∈ cs, isWordChar e = true := by
  cases cs with
  | nil => exact absurd h Bool.false_ne_true
  | cons d ds =>
    simp only [isKeywordRun, Bool.and_eq_true, Bool.or_eq_true, beq_iff_eq, List.all_eq_true,
      isKeywordChar, Char.isAlphanum] at h
    have hstart : isWordStart d = true := by
      rcases h.1 with ha | rfl
      · simp [isWordStart, ha]
      · rfl
    refine ⟨d, ds, rfl, hstart, ?_⟩
    intro e he
    rcases List.mem_cons.mp he with rfl | he
    · simp [isWordChar, hstart]
    · rcases h.2 e he with ((ha | hd) | rfl) | rfl
      · simp [isWordChar, isWordStart, ha]
      · simp [isWordChar, hd]
      · rfl
      · rfl

theorem scanWord_of_span (hspan : cs.span isWordChar = (run, rest))
    (hrest : ':' ∉ rest.head?) : scanWord cs = scanRun run rest := by
  unfold scanWord
  rw [hspan]
  split
  · rename_i heq
    cases heq
    exact absurd rfl hrest
  · rename_i heq
    cases heq
    rfl

theorem scanWord_run (hrun : ∀ d ∈ run, isWordChar d = true) (h : Apart rest) :
    scanWord (run ++ rest) = scanRun run rest := by
  apply scanWord_of_span (span_append hrun (head_not_word h))
  cases rest with
  | nil => simp
  | cons d rest =>
    intro hd
    cases hd
    exact absurd rfl (isApart_facts h).2.2.1

theorem lexes_word (hrun : isWord run = true) (h : Apart rest)
    (hr : Lexes rest ts) : Lexes (run ++ rest) (.keyword (String.ofList run) :: ts) := by
  simp only [isWord, Bool.and_eq_true, Bool.not_eq_true'] at hrun
  obtain ⟨d, ds, rfl, hstart, hchars⟩ := isWordChar_of_keyword hrun.1
  have hblank := not_blank_of_wordStart hstart
  have hscan : scan d (ds ++ rest) =
      ⟨some (.keyword (String.ofList (d :: ds))), d :: ds, rest⟩ := by
    rw [scan_wordStart hstart, ← List.cons_append, scanWord_run hchars h]
    unfold scanRun
    rw [if_pos hrun.1]
    split
    · exact absurd rfl (isApart_facts h).2.2.2.1
    · rename_i e es heq
      rw [if_neg]
      intro hall
      have hint : isIntTypeRun (d :: ds) = true := by rw [heq]; exact hall
      rw [hrun.2] at hint
      cases hint
    · rfl
  exact lexes_scan hblank.1 hblank.2 hscan (by simp) hr

/-- The tokens of fixed text: words, marks and blanks. `run` is the word at hand. -/
def literalTokens : (run : List Char) → List Char → Option (List Token)
  | [], [] => some []
  | _ :: _, [] => none
  | run, c :: cs =>
    if isWordChar c then literalTokens (run ++ [c]) cs
    else if !isApart c then none
    else
      let behind :=
        if isBlank c then literalTokens [] cs
        else (punctuation? c).bind fun t => (literalTokens [] cs).map (t :: ·)
      match run with
      | [] => behind
      | d :: ds =>
        if isWord (d :: ds) then behind.map (.keyword (String.ofList (d :: ds)) :: ·) else none

theorem lexes_literalTokens {lead : List Char} (h : literalTokens run lead = some us)
    (hr : Lexes rest ts) : Lexes (run ++ (lead ++ rest)) (us ++ ts) := by
  induction lead generalizing run us with
  | nil =>
    cases run with
    | nil => cases h; exact hr
    | cons d ds => cases h
  | cons c lead ih =>
    rw [literalTokens] at h
    split at h
    · have := ih h
      rwa [List.append_assoc] at this
    split at h
    · cases h
    rename_i _ hap
    have hap : Apart (c :: (lead ++ rest)) := by simpa [Apart] using hap
    -- What stands behind the word at hand.
    have behind : ∀ vs, (if isBlank c = true then literalTokens [] lead
        else (punctuation? c).bind fun t => (literalTokens [] lead).map (t :: ·)) = some vs →
        Lexes (c :: (lead ++ rest)) (vs ++ ts) := by
      intro vs hvs
      split at hvs
      · exact lexes_blank ‹_› (ih hvs)
      · obtain ⟨t, ht, hvs⟩ := Option.bind_eq_some_iff.mp hvs
        obtain ⟨ws, hws, rfl⟩ := Option.map_eq_some_iff.mp hvs
        exact lexes_mark ht (ih hws)
    cases run with
    | nil => exact behind us h
    | cons d ds =>
      simp only at h
      split at h
      · obtain ⟨ws, hws, rfl⟩ := Option.map_eq_some_iff.mp h
        exact lexes_word ‹_› hap (behind ws hws)
      · cases h

theorem lexes_literal (lead : String) (us : List Token) (h : literalTokens [] lead.toList = some us)
    (hr : Lexes rest ts) : Lexes (lead.toList ++ rest) (us ++ ts) :=
  lexes_literalTokens h hr

theorem apart_literal (lead : String) (h : lead.toList.head?.any isApart = true) :
    Apart (lead.toList ++ rest) := by
  cases hl : lead.toList with
  | nil =>
    rw [hl] at h
    cases h
  | cons d ds =>
    rw [hl] at h
    exact h

/-! ## 5. Whole numbers -/

theorem toList_toString (n : Nat) : (toString n).toList = Nat.toDigits 10 n :=
  Nat.toList_repr

theorem isDigit_toDigits (n : Nat) : ∀ d ∈ Nat.toDigits 10 n, d.isDigit = true :=
  fun _ hd => Nat.isDigit_of_mem_toDigits (by decide) (by decide) hd

@[simp] theorem digitsValue_toDigits (n : Nat) : digitsValue (Nat.toDigits 10 n) = n :=
  Nat.ofDigitChars_ten_toDigits

theorem toDigits_cons (n : Nat) : ∃ d ds, Nat.toDigits 10 n = d :: ds ∧ d.isDigit = true := by
  cases h : Nat.toDigits 10 n with
  | nil => exact absurd h Nat.toDigits_ne_nil
  | cons d ds => exact ⟨d, ds, rfl, isDigit_toDigits n d (by rw [h]; exact List.mem_cons_self)⟩

theorem scanNumber_plain (hds : ∀ d ∈ ds, d.isDigit = true) (h : Apart rest) :
    scanNumber (ds ++ rest) = ⟨(fits128? (digitsValue ds)).map .integer, ds, rest⟩ := by
  unfold scanNumber
  rw [takeDigits_append hds h]
  split
  · rename_i heq
    cases heq
    exact absurd rfl (isApart_facts h).2.2.1
  · rename_i heq
    cases heq
    exact absurd rfl (isApart_facts h).2.2.2.2.1
  · rename_i heq
    cases heq
    simp only
    split
    · exact absurd rfl (isApart_facts h).2.2.2.2.2
    · rfl

theorem fits128?_of_mem {v : Int} (hl : -(span 127 : Int) ≤ v) (hu : v < span 127) :
    fits128? v = some v :=
  if_pos ⟨hl, hu⟩

theorem lexes_nat (hn : n < span 127) (h : Apart rest) (hr : Lexes rest ts) :
    Lexes ((toString n).toList ++ rest) (.integer n :: ts) := by
  obtain ⟨d, ds, hds, hd⟩ := toDigits_cons n
  have hblank := not_blank_of_digit hd
  have hfits : fits128? (n : Int) = some (n : Int) := fits128?_of_mem (by omega) (by omega)
  have hscan : scan d (ds ++ rest) = ⟨some (.integer n), d :: ds, rest⟩ := by
    rw [scan_digit hd, ← List.cons_append, ← hds, scanNumber_plain (isDigit_toDigits n) h,
      digitsValue_toDigits, hfits]
    rfl
  rw [toList_toString, hds]
  exact lexes_scan hblank.1 hblank.2 hscan (by simp) hr

theorem scanRun_negative (hds : ∀ d ∈ ds, d.isDigit = true) (hne : ds ≠ []) :
    scanRun ('-' :: ds) rest =
      ⟨(fits128? (-(digitsValue ds : Int))).map .integer, '-' :: ds, rest⟩ := by
  have htake : takeDigits ds = (ds, []) := by
    have hend : Apart [] := trivial
    have := takeDigits_append hds hend
    rwa [List.append_nil] at this
  unfold scanRun
  rw [if_neg (by simp [isKeywordRun])]
  cases ds with
  | nil => exact absurd rfl hne
  | cons d ds => simp only [htake]

theorem lexes_int {v : Int} (hl : -(span 127 : Int) ≤ v) (hu : v < span 127) (h : Apart rest)
    (hr : Lexes rest ts) : Lexes ((toString v).toList ++ rest) (.integer v :: ts) := by
  cases v with
  | ofNat n => exact lexes_nat (by simpa using hu) h hr
  | negSucc n =>
    have htext : (toString (Int.negSucc n)).toList = '-' :: Nat.toDigits 10 (n + 1) := by
      change ("-" ++ toString (n + 1)).toList = _
      rw [String.toList_append, toList_toString]
      rfl
    have hscan : scan '-' (Nat.toDigits 10 (n + 1) ++ rest) =
        ⟨some (.integer (Int.negSucc n)), '-' :: Nat.toDigits 10 (n + 1), rest⟩ := by
      have hrun : ∀ d ∈ '-' :: Nat.toDigits 10 (n + 1), isWordChar d = true := by
        intro d hd
        rcases List.mem_cons.mp hd with rfl | hd
        · rfl
        · simp [isWordChar, isDigit_toDigits _ d hd]
      rw [scan_wordStart rfl, ← List.cons_append, scanWord_run hrun h,
        scanRun_negative (isDigit_toDigits _) Nat.toDigits_ne_nil, digitsValue_toDigits]
      have hfits : fits128? (-((n + 1 : Nat) : Int)) = some (Int.negSucc n) :=
        fits128?_of_mem hl hu
      rw [hfits]
      rfl
    rw [htext]
    exact lexes_scan rfl (by decide) hscan (by simp) hr

theorem lexes_intType (hn : n < span 32) (h : Apart rest) (hr : Lexes rest ts) :
    Lexes ("i".toList ++ ((toString n).toList ++ rest)) (.intType n :: ts) := by
  obtain ⟨d, ds, hds, hd⟩ := toDigits_cons n
  have hdigits : ∀ e ∈ d :: ds, e.isDigit = true := by rw [← hds]; exact isDigit_toDigits n
  have hall : (d :: ds).all Char.isDigit = true := List.all_eq_true.mpr hdigits
  have hkey : isKeywordRun ('i' :: d :: ds) = true := by
    simp only [isKeywordRun, Bool.and_eq_true, List.all_eq_true]
    exact ⟨rfl, fun e he => by simp [isKeywordChar, Char.isAlphanum, hdigits e he]⟩
  obtain ⟨-, -, -, -, hchars⟩ := isWordChar_of_keyword hkey
  have hscan : scan 'i' (d :: ds ++ rest) = ⟨some (.intType n), 'i' :: d :: ds, rest⟩ := by
    rw [scan_wordStart rfl, ← List.cons_append, scanWord_run hchars h]
    unfold scanRun
    rw [if_pos hkey]
    simp only [hall, if_true]
    rw [← hds, digitsValue_toDigits, fits32?, if_pos hn]
    rfl
  rw [toList_toString, hds]
  exact lexes_scan rfl (by decide) hscan (by simp; omega) hr

/-! ## 6. Numbers with a point -/

theorem toList_padded (width n : Nat) : (Binary64.padded width n).toList =
    List.replicate (width - (Nat.toDigits 10 n).length) '0' ++ Nat.toDigits 10 n := by
  simp only [Binary64.padded, String.toList_ofList]

theorem isDigit_padded (width n : Nat) :
    ∀ d ∈ (Binary64.padded width n).toList, d.isDigit = true := by
  intro d hd
  rw [toList_padded] at hd
  rcases List.mem_append.mp hd with hd | hd
  · rw [(List.mem_replicate.mp hd).2]
    rfl
  · exact isDigit_toDigits n d hd

theorem digitsValue_append (ds es : List Char) :
    digitsValue (ds ++ es) = 10 ^ es.length * digitsValue ds + digitsValue es := by
  change Nat.ofDigitChars 10 (ds ++ es) 0 = _
  rw [Nat.ofDigitChars_append, Nat.ofDigitChars_eq_ofDigitChars_zero]
  rfl

@[simp] theorem digitsValue_padded (width n : Nat) :
    digitsValue (Binary64.padded width n).toList = n := by
  rw [toList_padded, digitsValue_append, digitsValue_toDigits]
  have hzero : ∀ k, digitsValue (List.replicate k '0') = 0 := by
    intro k
    change Nat.ofDigitChars 10 (List.replicate k '0') 0 = 0
    simp
  rw [hzero]
  omega

theorem length_padded {width : Nat} (hw : 0 < width) (h : n < 10 ^ width) :
    (Binary64.padded width n).toList.length = width := by
  have hle := (Nat.length_toDigits_le_iff (b := 10) (by decide) hw).mpr h
  rw [toList_padded, List.length_append, List.length_replicate]
  omega

theorem takeExponent?_signed (negative : Bool)
    (hds : ∀ d ∈ ds, d.isDigit = true) (hne : ds ≠ []) (h : Apart rest) :
    takeExponent? ('e' :: (if negative then '-' else '+') :: (ds ++ rest)) =
      some ('e' :: (if negative then '-' else '+') :: ds,
        (if negative then -(digitsValue ds : Int) else digitsValue ds), rest) := by
  have htake := takeDigits_append hds h
  cases ds with
  | nil => exact absurd rfl hne
  | cons d ds =>
    rw [List.cons_append] at htake
    cases negative <;> simp [takeExponent?, htake]

theorem takeDigits_point (hds : ∀ d ∈ ds, d.isDigit = true) {mark : Char}
    (hmark : mark.isDigit = false) : takeDigits (ds ++ mark :: rest) = (ds, mark :: rest) := by
  apply span_append hds
  intro e he
  cases he
  exact hmark

/-- What stands behind the point of a number in scientific form. -/
def scientificTail (digits : Nat) (exponent : Int) : List Char :=
  (Binary64.padded 6 (digits % decimals 6)).toList ++
    'e' :: (if decide (exponent < 0) then '-' else '+') ::
      (Binary64.padded 2 exponent.natAbs).toList

theorem toList_scientificOf (negative : Bool) (digits : Nat) (exponent : Int) :
    (Binary64.scientificOf negative digits exponent).toList =
      (if negative then ['-'] else []) ++ (Nat.toDigits 10 (digits / decimals 6) ++
        '.' :: scientificTail digits exponent) := by
  cases negative <;> by_cases he : exponent < 0 <;>
    simp [Binary64.scientificOf, scientificTail, he]

theorem scanDecimal_scientific (negative : Bool) (digits : Nat) (exponent : Int) (h : Apart rest) :
    scanDecimal (if negative then ['-'] else []) (Nat.toDigits 10 (digits / decimals 6))
        (scientificTail digits exponent ++ rest) =
      ⟨some (.decimal (Binary64.ofDecimal negative digits (exponent - 6))),
        (Binary64.scientificOf negative digits exponent).toList, rest⟩ := by
  have hlen : (Binary64.padded 6 (digits % decimals 6)).toList.length = 6 :=
    length_padded (by decide) (Nat.mod_lt _ (by decide))
  have hne : (Binary64.padded 2 exponent.natAbs).toList ≠ [] := by
    rw [toList_padded]
    simp
  have hexp : (if decide (exponent < 0) = true then -((exponent.natAbs : Nat) : Int)
      else ((exponent.natAbs : Nat) : Int)) = exponent := by
    simp only [decide_eq_true_eq]
    split <;> omega
  have hvalue : 10 ^ 6 * (digits / decimals 6) + digits % decimals 6 = digits :=
    Nat.div_add_mod digits (10 ^ 6)
  have hsign : ((if negative = true then ['-'] else []) = ['-']) = (negative = true) := by
    cases negative <;> simp
  unfold scanDecimal
  simp only [scientificTail, List.append_assoc, List.cons_append]
  rw [takeDigits_point (isDigit_padded 6 _) rfl]
  simp only
  rw [takeExponent?_signed _ (isDigit_padded 2 _) hne h]
  simp only [Option.getD_some, digitsValue_append, hlen, digitsValue_padded, digitsValue_toDigits,
    hexp, hvalue, toList_scientificOf, scientificTail, hsign, Bool.decide_eq_true]
  rfl

theorem isWordChar_scientific (negative : Bool) (digits : Nat) :
    ∀ d ∈ (if negative then ['-'] else []) ++ (Nat.toDigits 10 (digits / decimals 6) ++
      '.' :: ((Binary64.padded 6 (digits % decimals 6)).toList ++ ['e'])), isWordChar d = true := by
  have digit : ∀ d : Char, d.isDigit = true → isWordChar d = true := by
    intro d hd
    simp [isWordChar, hd]
  intro d hd
  simp only [List.mem_append, List.mem_cons, List.not_mem_nil, or_false] at hd
  rcases hd with hd | hd | rfl | hd | rfl
  · cases negative <;> simp at hd
    rw [hd]
    rfl
  · exact digit d (isDigit_toDigits _ d hd)
  · rfl
  · exact digit d (isDigit_padded _ _ d hd)
  · rfl

theorem scanWord_scientific (digits : Nat) (exponent : Int) (h : Apart rest) :
    scanWord ((Binary64.scientificOf true digits exponent).toList ++ rest) =
      ⟨some (.decimal (Binary64.ofDecimal true digits (exponent - 6))),
        (Binary64.scientificOf true digits exponent).toList, rest⟩ := by
  have hdecimal := scanDecimal_scientific true digits exponent h
  have hhead := isWordChar_scientific true digits
  simp only [if_true, List.cons_append, List.nil_append] at hdecimal hhead
  -- The run is the whole text, or ends with the mark of the exponent.
  obtain ⟨tail, after, htail, hchars, hafter⟩ : ∃ tail after,
      scientificTail digits exponent ++ rest = tail ++ after ∧
      (∀ d ∈ '-' :: (Nat.toDigits 10 (digits / decimals 6) ++ '.' :: tail), isWordChar d = true) ∧
      Apart after ∧ tail.length ≤ (scientificTail digits exponent).length := by
    by_cases he : exponent < 0
    · refine ⟨scientificTail digits exponent, rest, rfl, ?_, h, Nat.le_refl _⟩
      intro d hd
      simp only [scientificTail, he, decide_true, if_true, List.mem_cons, List.mem_append] at hd
      rcases hd with rfl | hd | rfl | hd | rfl | rfl | hd
      · rfl
      · exact hhead d (by simp [hd])
      · rfl
      · exact hhead d (by simp [hd])
      · rfl
      · rfl
      · simp [isWordChar, isDigit_padded _ _ d hd]
    · refine ⟨(Binary64.padded 6 (digits % decimals 6)).toList ++ ['e'],
        '+' :: ((Binary64.padded 2 exponent.natAbs).toList ++ rest), ?_, hhead, rfl, ?_⟩
      · simp [scientificTail, he]
      · simp [scientificTail]
  have htext : (Binary64.scientificOf true digits exponent).toList ++ rest =
      '-' :: (Nat.toDigits 10 (digits / decimals 6) ++ '.' :: tail) ++ after := by
    rw [toList_scientificOf]
    simp [htail]
  obtain ⟨e, es, hes, -⟩ := toDigits_cons (digits / decimals 6)
  rw [htext, scanWord_run hchars hafter.1]
  unfold scanRun
  rw [if_neg (by simp [isKeywordRun])]
  simp only
  rw [takeDigits_point (isDigit_toDigits _) rfl]
  rw [htail, hes] at hdecimal
  rw [hes]
  simp only [hdecimal]
  rw [if_pos]
  left
  rw [toList_scientificOf]
  have hlen := hafter.2
  simp only [hes, List.length_cons, List.length_append, if_true, List.length_nil]
  omega

theorem lexes_scientific (negative : Bool) (digits : Nat) (exponent : Int) (h : Apart rest)
    (hr : Lexes rest ts) :
    Lexes ((Binary64.scientificOf negative digits exponent).toList ++ rest)
      (.decimal (Binary64.ofDecimal negative digits (exponent - 6)) :: ts) := by
  cases negative with
  | false =>
    obtain ⟨d, ds, hds, hd⟩ := toDigits_cons (digits / decimals 6)
    have hblank := not_blank_of_digit hd
    have hdecimal := scanDecimal_scientific false digits exponent h
    have hscan : scan d (ds ++ '.' :: scientificTail digits exponent ++ rest) =
        ⟨some (.decimal (Binary64.ofDecimal false digits (exponent - 6))),
          (Binary64.scientificOf false digits exponent).toList, rest⟩ := by
      rw [scan_digit hd, ← hdecimal, ← List.cons_append, ← List.cons_append, ← hds]
      unfold scanNumber
      rw [List.append_assoc, List.cons_append, takeDigits_point (isDigit_toDigits _) rfl]
      rfl
    rw [toList_scientificOf, hds]
    exact lexes_scan hblank.1 hblank.2 hscan (by simp; omega) hr
  | true =>
    have hword := scanWord_scientific digits exponent h
    rw [toList_scientificOf] at hword ⊢
    exact lexes_scan rfl (by decide) ((scan_wordStart rfl).trans hword) (by simp; omega) hr

theorem hexValue?_hexDigit (h : n < 16) : hexValue? (hexDigit n) = some n :=
  (hexDigit_facts n h).2.2.2.2

theorem hexNumber?_hexFixed (width n : Nat) :
    hexNumber? (hexFixed width n) = some (n % 16 ^ width) := by
  induction width generalizing n with
  | zero => simp [hexFixed, hexNumber?, Nat.mod_one]
  | succ width ih =>
    have ih := ih (n / 16)
    simp only [hexNumber?] at ih
    simp only [hexFixed, hexNumber?, List.foldlM_append, ih, List.foldlM_cons, List.foldlM_nil]
    simp only [hexValue?_hexDigit (Nat.mod_lt n (by decide : 0 < 16)), Option.map_some,
      Option.bind_eq_bind, Option.bind_some, Option.pure_def]
    rw [Nat.pow_succ', Nat.mod_mul, Nat.add_comm]

theorem isSome_hexFixed (width n : Nat) :
    ∀ d ∈ hexFixed width n, (hexValue? d).isSome = true := by
  induction width generalizing n with
  | zero => simp [hexFixed]
  | succ width ih =>
    intro d hd
    rcases List.mem_append.mp hd with hd | hd
    · exact ih _ d hd
    · rw [List.mem_singleton] at hd
      rw [hd, hexValue?_hexDigit (Nat.mod_lt n (by decide))]
      rfl

theorem isWordChar_of_hex (h : (hexValue? c).isSome = true) : isWordChar c = true := by
  have trans : ∀ a b c : UInt32, a ≤ b → b ≤ c → a ≤ c := fun _ _ _ => UInt32.le_trans
  unfold hexValue? at h
  split at h
  · rename_i hc
    have hdigit : c.isDigit = true := by
      simp only [Char.isDigit, Bool.and_eq_true, decide_eq_true_eq]
      exact hc
    simp [isWordChar, hdigit]
  split at h
  · rename_i hc
    have hupper : c.isUpper = true :=
      (isUpper_iff c).mpr ⟨hc.1, trans _ _ _ hc.2 (by decide)⟩
    simp [isWordChar, isWordStart, isAlpha_eq, hupper]
  split at h
  · rename_i hc
    have hlower : c.isLower = true :=
      (isLower_iff c).mpr ⟨hc.1, trans _ _ _ hc.2 (by decide)⟩
    simp [isWordChar, isWordStart, isAlpha_eq, hlower]
  · cases h

theorem head_not_hex (h : Apart rest) : ∀ d ∈ rest.head?, (hexValue? d).isSome = false := by
  intro d hd
  by_contra hsome
  rw [Bool.not_eq_false] at hsome
  have hword := head_not_word h d hd
  rw [isWordChar_of_hex hsome] at hword
  cases hword

theorem lexes_hexadecimal (bits : UInt64) (h : Apart rest) (hr : Lexes rest ts) :
    Lexes ((Binary64.hexadecimal bits).toList ++ rest) (.hexBits bits :: ts) := by
  have hlt : bits.toNat < 16 ^ 16 := bits.toNat_lt
  have hspan : bits.toNat < span 64 := bits.toNat_lt
  have hlen := hexFixed_length 16 bits.toNat
  have hnumber : hexNumber? (hexFixed 16 bits.toNat) = some bits.toNat := by
    rw [hexNumber?_hexFixed, Nat.mod_eq_of_lt hlt]
  have hrun := span_append (isSome_hexFixed 16 bits.toNat) (head_not_hex h)
  have htext : (Binary64.hexadecimal bits).toList ++ rest =
      '0' :: 'x' :: (hexFixed 16 bits.toNat ++ rest) := by
    simp [Binary64.hexadecimal]
  have hscan : scan '0' ('x' :: (hexFixed 16 bits.toNat ++ rest)) =
      ⟨some (.hexBits bits), '0' :: 'x' :: hexFixed 16 bits.toNat, rest⟩ := by
    have htake : takeDigits ('0' :: 'x' :: (hexFixed 16 bits.toNat ++ rest)) =
        (['0'], 'x' :: (hexFixed 16 bits.toNat ++ rest)) := rfl
    rw [scan_digit rfl]
    unfold scanNumber
    rw [htake]
    split
    · rename_i heq
      cases heq
    · rename_i heq
      cases heq
    · rename_i heq
      cases heq
      simp only
      rw [hrun]
      cases hhex : hexFixed 16 bits.toNat with
      | nil =>
        rw [hhex] at hlen
        cases hlen
      | cons d ds =>
        rw [hhex] at hnumber
        simp only [hnumber, Option.getD_some, hspan, if_true, UInt64.ofNat_toNat]
  rw [htext]
  exact lexes_scan rfl (by decide) hscan (by simp; omega) hr

/-- The token of a floating point constant: a decimal where seven digits are enough. -/
def floatToken (bits : UInt64) : Token :=
  if (Binary64.scientific? bits).isSome then .decimal bits else .hexBits bits

theorem lexes_float (bits : UInt64) (h : Apart rest) (hr : Lexes rest ts) :
    Lexes ((Binary64.text bits).toList ++ rest) (floatToken bits :: ts) := by
  unfold Binary64.text floatToken
  cases hsci : Binary64.scientific? bits with
  | none => exact lexes_hexadecimal bits h hr
  | some text =>
    unfold Binary64.scientific? at hsci
    split at hsci
    · simp only at hsci
      split at hsci
      · rename_i hback
        cases hsci
        have := lexes_scientific (Binary64.isNegative bits) (Binary64.sevenDigits bits).1
          (Binary64.sevenDigits bits).2 h hr
        rw [hback] at this
        exact this
      · cases hsci
    · cases hsci

/-! ## 7. Quoted text -/

theorem quote_append (inner : List Char) :
    "\"".toList ++ (inner ++ ("\"".toList ++ rest)) = '"' :: (inner ++ '"' :: rest) := by
  simp

theorem scan_quote : scan '"' cs = scanString cs := rfl

theorem lexes_quoted {inner : List Char} {s : String} (hquote : '"' ∉ inner)
    (hs : unescape inner = s) (h : Apart rest) (hr : Lexes rest ts) :
    Lexes ('"' :: (inner ++ '"' :: rest)) (.string s :: ts) := by
  have hscan : scan '"' (inner ++ '"' :: rest) =
      ⟨some (.string s), '"' :: inner ++ ['"'], rest⟩ := by
    rw [scan_quote]
    unfold scanString
    rw [takeQuoted?_append hquote]
    split
    · rename_i heq
      cases heq
    · rename_i heq
      cases heq
      exact absurd rfl (isApart_facts h).2.2.1
    · rename_i heq
      cases heq
      rw [hs]
  exact lexes_scan rfl (by decide) hscan (by simp; omega) hr

theorem lexes_escaped (s : String) (h : Apart rest) (hr : Lexes rest ts) :
    Lexes ("\"".toList ++ ((escapeBytes (utf8Bytes s)).toList ++ ("\"".toList ++ rest)))
      (.string s :: ts) := by
  rw [quote_append]
  exact lexes_quoted (quote_not_mem_escapeBytes _) (unescape_escapeBytes s) h hr

theorem lexes_bytes (data : List UInt8) (hr : Lexes rest ts) :
    Lexes ("c\"".toList ++ ((escapeBytes data).toList ++ ("\"".toList ++ rest)))
      (.bytes data :: ts) := by
  have htext : "c\"".toList ++ ((escapeBytes data).toList ++ ("\"".toList ++ rest)) =
      'c' :: '"' :: ((escapeBytes data).toList ++ '"' :: rest) := by
    simp
  have hdata : unescapeBytes (utf8 (escapeBytes data).toList) = data := by
    simp only [escapeBytes, String.toList_ofList, unescapeBytes_escape]
  generalize hafter : '"' :: ((escapeBytes data).toList ++ '"' :: rest) = after at htext
  have hspan : (['c'] ++ after).span isWordChar = (['c'], after) := by
    apply span_append (List.all_eq_true.mp rfl)
    intro d hd
    rw [← hafter] at hd
    cases hd
    rfl
  have hscan : scan 'c' after =
      ⟨some (.bytes data), 'c' :: '"' :: (escapeBytes data).toList ++ ['"'], rest⟩ := by
    rw [List.cons_append, List.nil_append] at hspan
    rw [scan_wordStart rfl, scanWord_of_span hspan (by simp [← hafter]), ← hafter]
    simp only [scanRun, (by decide : isKeywordRun ['c'] = true), if_true,
      takeQuoted?_append (quote_not_mem_escapeBytes data), hdata]
  have hlen : rest.length ≤ after.length := by
    rw [← hafter]
    simp only [List.length_cons, List.length_append]
    omega
  rw [htext]
  exact lexes_scan rfl (by decide) hscan hlen hr

/-! ## 8. Symbols -/

namespace Symbol

/-- How a local symbol is written behind its sigil. -/
def text : Symbol → String
  | named name => quoteName name
  | numbered n => toString n

/-- A number that can be read back. -/
def Fits : Symbol → Prop
  | named _ => True
  | numbered n => n < span 32

/-- The token of a local symbol. -/
def localToken : Symbol → Token
  | named name => .localName name
  | numbered n => .localId n

/-- The token of a global symbol. -/
def globalToken : Symbol → Token
  | named name => .globalName name
  | numbered n => .globalId n

/-- The token of a label. -/
def labelToken : Symbol → Token
  | named name => .labelName name
  | numbered n => .labelId n

end Symbol

theorem isBare_cons {name : String} (h : isBare name.toList = true) :
    ∃ d ds, name.toList = d :: ds ∧ isWordStart d = true ∧
      ∀ e ∈ name.toList, isWordChar e = true := by
  cases hname : name.toList with
  | nil =>
    rw [hname] at h
    cases h
  | cons d ds =>
    simp only [hname, isBare, Bool.and_eq_true, List.all_eq_true] at h
    refine ⟨d, ds, rfl, h.1, ?_⟩
    intro e he
    rcases List.mem_cons.mp he with rfl | he
    · simp [isWordChar, h.1]
    · exact h.2 e he

theorem toList_quoteName {name : String} (h : isBare name.toList = false) :
    (quoteName name).toList = '"' :: ((escapeBytes (utf8Bytes name)).toList ++ ['"']) := by
  simp [quoteName, h]

theorem scanSymbol_named (sigil : Char) (named : String → Token) (numbered : Nat → Token)
    (name : String) (h : Apart rest) :
    ∃ text, scanSymbol sigil named numbered ((quoteName name).toList ++ rest) =
      ⟨some (named name), text, rest⟩ := by
  cases hbare : isBare name.toList with
  | true =>
    obtain ⟨d, ds, hname, hstart, hchars⟩ := isBare_cons hbare
    have hspan := span_append hchars (head_not_word h)
    have hquote : d ≠ '"' := by
      rintro rfl
      exact absurd hstart (by decide)
    refine ⟨sigil :: name.toList, ?_⟩
    simp only [quoteName, hbare, if_true]
    rw [hname, List.cons_append] at hspan ⊢
    unfold scanSymbol
    split
    · rename_i heq
      cases heq
      exact absurd rfl hquote
    · simp only [scanSigil, hstart, if_true, hspan]
      rw [← hname, String.ofList_toList]
  | false =>
    refine ⟨sigil :: '"' :: (escapeBytes (utf8Bytes name)).toList ++ ['"'], ?_⟩
    rw [toList_quoteName hbare]
    simp only [List.cons_append, List.append_assoc, List.nil_append]
    unfold scanSymbol
    simp only [takeQuoted?_append (quote_not_mem_escapeBytes _), unescape_escapeBytes]
    rfl

theorem scanSymbol_digits (sigil : Char) (named : String → Token) (numbered : Nat → Token)
    (hne : ds ≠ []) (hds : ∀ d ∈ ds, d.isDigit = true) (h : Apart rest) :
    scanSymbol sigil named numbered (ds ++ rest) =
      ⟨(fits32? (digitsValue ds)).map numbered, sigil :: ds, rest⟩ := by
  have htake := takeDigits_append hds h
  obtain ⟨d, ds', rfl⟩ := List.exists_cons_of_ne_nil hne
  have hd := hds d List.mem_cons_self
  have hquote : d ≠ '"' := by
    rintro rfl
    exact absurd hd (by decide)
  have hstart : isWordStart d = false := by
    by_contra hs
    rw [Bool.not_eq_false] at hs
    have hdigit := isDigit_of_wordStart hs
    rw [hd] at hdigit
    cases hdigit
  rw [List.cons_append] at htake ⊢
  unfold scanSymbol
  split
  · rename_i heq
    cases heq
    exact absurd rfl hquote
  · simp only [scanSigil, hstart, Bool.false_eq_true, if_false, hd, if_true, htake]

theorem scanSymbol_numbered (sigil : Char) (named : String → Token) (numbered : Nat → Token)
    (hn : n < span 32) (h : Apart rest) :
    ∃ text, scanSymbol sigil named numbered ((toString n).toList ++ rest) =
      ⟨some (numbered n), text, rest⟩ := by
  obtain ⟨d, ds, hds, -⟩ := toDigits_cons n
  refine ⟨sigil :: Nat.toDigits 10 n, ?_⟩
  rw [toList_toString, scanSymbol_digits sigil named numbered (by simp [hds]) (isDigit_toDigits n) h,
    digitsValue_toDigits, fits32?, if_pos hn]
  rfl

theorem scan_local (hs : s.Fits) (h : Apart rest) :
    ∃ text, scan '%' (s.text.toList ++ rest) = ⟨some s.localToken, text, rest⟩ := by
  cases s with
  | named name => exact scanSymbol_named '%' .localName .localId name h
  | numbered n => exact scanSymbol_numbered '%' .localName .localId hs h

theorem scan_global (hs : s.Fits) (h : Apart rest) :
    ∃ text, scan '@' (s.text.toList ++ rest) = ⟨some s.globalToken, text, rest⟩ := by
  cases s with
  | named name => exact scanSymbol_named '@' .globalName .globalId name h
  | numbered n => exact scanSymbol_numbered '@' .globalName .globalId hs h

theorem scan_label (hs : s.Fits) (rest : List Char) :
    ∃ d ds text, s.text.toList ++ ':' :: rest = d :: ds ∧ isBlank d = false ∧ d ≠ ';' ∧
      scan d ds = ⟨some s.labelToken, text, rest⟩ := by
  cases s with
  | named name =>
    cases hbare : isBare name.toList with
    | true =>
      obtain ⟨d, ds, hname, hstart, hchars⟩ := isBare_cons hbare
      have hblank := not_blank_of_wordStart hstart
      have hspan : (name.toList ++ ':' :: rest).span isWordChar = (name.toList, ':' :: rest) := by
        apply span_append hchars
        intro e he
        cases he
        rfl
      refine ⟨d, ds ++ ':' :: rest, name.toList ++ [':'], ?_, hblank.1, hblank.2, ?_⟩
      · simp only [Symbol.text, quoteName, hbare, if_true]
        rw [hname, List.cons_append]
      · rw [scan_wordStart hstart, ← List.cons_append, ← hname]
        unfold scanWord
        rw [hspan]
        simp only [String.ofList_toList]
        rfl
    | false =>
      refine ⟨'"', (escapeBytes (utf8Bytes name)).toList ++ '"' :: ':' :: rest,
        '"' :: (escapeBytes (utf8Bytes name)).toList ++ ['"', ':'], ?_, rfl, by decide, ?_⟩
      · simp [Symbol.text, toList_quoteName hbare]
      · rw [scan_quote]
        unfold scanString
        simp only [takeQuoted?_append (quote_not_mem_escapeBytes _), unescape_escapeBytes]
        rfl
  | numbered n =>
    obtain ⟨d, ds, hds, hd⟩ := toDigits_cons n
    have hblank := not_blank_of_digit hd
    have hn : n < span 32 := hs
    refine ⟨d, ds ++ ':' :: rest, Nat.toDigits 10 n ++ [':'], ?_, hblank.1, hblank.2, ?_⟩
    · rw [Symbol.text, toList_toString, hds, List.cons_append]
    · rw [scan_digit hd, ← List.cons_append, ← hds]
      unfold scanNumber
      rw [takeDigits_point (isDigit_toDigits n) rfl]
      simp only [digitsValue_toDigits, fits32?, if_pos hn]
      rfl

theorem lexes_local (hs : s.Fits) (h : Apart rest) (hr : Lexes rest ts) :
    Lexes ("%".toList ++ (s.text.toList ++ rest)) (s.localToken :: ts) := by
  obtain ⟨text, hscan⟩ := scan_local hs h
  exact lexes_scan rfl (by decide) hscan (by simp) hr

theorem lexes_global (hs : s.Fits) (h : Apart rest) (hr : Lexes rest ts) :
    Lexes ("@".toList ++ (s.text.toList ++ rest)) (s.globalToken :: ts) := by
  obtain ⟨text, hscan⟩ := scan_global hs h
  exact lexes_scan rfl (by decide) hscan (by simp) hr

theorem lexes_label (hs : s.Fits) (hr : Lexes rest ts) :
    Lexes (s.text.toList ++ (":".toList ++ rest)) (s.labelToken :: ts) := by
  obtain ⟨d, ds, text, htext, hblank, hcomment, hscan⟩ := scan_label hs rest
  have hlen := congrArg List.length htext
  simp only [List.length_append, List.length_cons] at hlen
  have hall : s.text.toList ++ (":".toList ++ rest) = d :: ds := htext
  rw [hall]
  exact lexes_scan hblank hcomment hscan (by omega) hr

theorem scan_groupId (hn : n < span 32) (h : Apart rest) :
    scan '#' (Nat.toDigits 10 n ++ rest) = ⟨some (.groupId n), '#' :: Nat.toDigits 10 n, rest⟩ := by
  obtain ⟨d, ds, hds, hd⟩ := toDigits_cons n
  change scanGroup _ = _
  unfold scanGroup
  rw [takeDigits_append (isDigit_toDigits n) h, hds]
  simp only
  rw [← hds, digitsValue_toDigits, fits32?, if_pos hn]
  rfl

theorem lexes_groupId (hn : n < span 32) (h : Apart rest) (hr : Lexes rest ts) :
    Lexes ("#".toList ++ ((toString n).toList ++ rest)) (.groupId n :: ts) := by
  rw [toList_toString]
  exact lexes_scan rfl (by decide) (scan_groupId hn h) (by simp) hr

theorem lexes_ellipsis (h : Apart rest) (hr : Lexes rest ts) :
    Lexes ("...".toList ++ rest) (.ellipsis :: ts) := by
  have hscan : scan '.' (['.', '.'] ++ rest) = ⟨some .ellipsis, ['.', '.', '.'], rest⟩ := by
    rw [scan_wordStart rfl, ← List.cons_append, scanWord_run (List.all_eq_true.mp rfl) h]
    rfl
  exact lexes_scan rfl (by decide) hscan (by simp; omega) hr

end QirProfile.Assembly
