import Mathlib.Data.List.Forall2
import QirProfile.Assembly.Print
import QirProfile.Proofs.Assembly.Lexing

/-!
# Types and values as tokens

Printed text is compared with trees through tokens. `Ty.tokens`, `Term.tokens` and their relatives
write a type or a term as tokens, and `Spells text ts` says that a text is read as the tokens `ts`
in front of everything that keeps apart from it.
-/

namespace QirProfile.Assembly

open Text

/-! ## 1. Texts in front of others -/

/-- The text is read as these tokens in front of everything that keeps apart from it. -/
def Spells (text : String) (toks : List Token) : Prop :=
  ∀ rest us, Apart rest → Lexes rest us → Lexes (text.toList ++ rest) (toks ++ us)

variable {text : String} {toks : List Token} {a b : String} {s t us : List Token}
  {rest : List Char}

theorem spells_empty : Spells "" [] :=
  fun _ _ _ h => h

theorem Spells.behind (lead : String) (s : List Token)
    (hs : literalTokens [] lead.toList = some s) (h : Spells text toks) :
    Spells (lead ++ text) (s ++ toks) := by
  intro rest us hap hr
  rw [String.toList_append, List.append_assoc, List.append_assoc]
  exact lexes_literal lead s hs (h rest us hap hr)

theorem Spells.before (h : Spells text toks) (tail : String) (s : List Token)
    (hs : literalTokens [] tail.toList = some s) (hap : tail.toList.head?.any isApart = true) :
    Spells (text ++ tail) (toks ++ s) := by
  intro rest us _ hr
  rw [String.toList_append, List.append_assoc, List.append_assoc]
  exact h _ _ (apart_literal tail hap) (lexes_literal tail s hs hr)

theorem Spells.between (ha : Spells a s) (mid : String) (m : List Token)
    (hm : literalTokens [] mid.toList = some m) (hap : mid.toList.head?.any isApart = true)
    (hb : Spells b t) : Spells (a ++ mid ++ b) (s ++ m ++ t) := by
  intro rest us hrest hr
  simp only [String.toList_append, List.append_assoc]
  exact ha _ _ (apart_literal mid hap) (lexes_literal mid m hm (hb _ _ hrest hr))

theorem spells_word (w : String) (h : isWord w.toList = true) : Spells w [.keyword w] := by
  intro rest us hap hr
  have := lexes_word h hap hr
  rwa [String.ofList_toList] at this

/-! ## 2. Lists -/

/-- Tokens joined by commas. -/
def commaTokens : List (List Token) → List Token
  | [] => []
  | [ts] => ts
  | ts :: us :: rest => ts ++ .comma :: commaTokens (us :: rest)

theorem commas_cons_cons (x y : String) (rest : List String) :
    Ty.commas (x :: y :: rest) = x ++ ", " ++ Ty.commas (y :: rest) := by
  simp [Ty.commas]

theorem spells_commas {texts : List String} {tokss : List (List Token)}
    (h : List.Forall₂ Spells texts tokss) : Spells (Ty.commas texts) (commaTokens tokss) := by
  induction h with
  | nil => exact spells_empty
  | @cons x ts texts tokss hx hrest ih =>
    cases hrest with
    | nil => simpa [Ty.commas, commaTokens] using hx
    | @cons y us texts tokss hy hrest =>
      rw [commas_cons_cons, commaTokens]
      have := hx.between ", " [.comma] (by decide) (by decide) ih
      simpa using this

end QirProfile.Assembly

namespace QirProfile

open Assembly Text

/-! ## 3. Types -/

namespace Ty

mutual

/-- Widths and lengths that can be read back. -/
def Fits : Ty → Prop
  | int bits => bits < span 32
  | ptr t => t.Fits
  | array n t => n < span 64 ∧ t.Fits
  | struct ts => AllFit ts
  | func r ts _ => r.Fits ∧ AllFit ts
  | void | half | float | double | label | metadata | named _ => True

/-- Every type of a list fits. -/
def AllFit : List Ty → Prop
  | [] => True
  | t :: ts => t.Fits ∧ AllFit ts

end

mutual

/-- The tokens of a type. -/
def tokens : Ty → List Token
  | void => [.keyword "void"]
  | int bits => [.intType bits]
  | half => [.keyword "half"]
  | float => [.keyword "float"]
  | double => [.keyword "double"]
  | label => [.keyword "label"]
  | metadata => [.keyword "metadata"]
  | ptr t => t.tokens ++ [.star]
  | named n => [.localName n]
  | array n t => .leftBracket :: .integer n :: .keyword "x" :: (t.tokens ++ [.rightBracket])
  | struct ts => .leftBrace :: (commaTokens (tokensAll ts) ++ [.rightBrace])
  | func r ts varArg =>
    r.tokens ++ .leftParen ::
      (commaTokens (tokensAll ts ++ if varArg then [[.ellipsis]] else []) ++ [.rightParen])

/-- The tokens of each type of a list. -/
def tokensAll : List Ty → List (List Token)
  | [] => []
  | t :: ts => t.tokens :: tokensAll ts

end

theorem allFit_iff {ts : List Ty} : AllFit ts ↔ ∀ t ∈ ts, t.Fits := by
  induction ts with
  | nil => simp [AllFit]
  | cons t ts ih => simp [AllFit, ih]

theorem tokensAll_eq_map (ts : List Ty) : tokensAll ts = ts.map tokens := by
  induction ts with
  | nil => simp [tokensAll]
  | cons t ts ih => simp [tokensAll, ih]

theorem spells_named (name : String) : Spells ("%" ++ quoteName name) [.localName name] := by
  intro rest us hap hr
  rw [String.toList_append, List.append_assoc]
  exact lexes_local (s := .named name) trivial hap hr

theorem spells_array {n : Nat} {text : String} {toks : List Token} (hn : n < span 64)
    (h : Spells text toks) :
    Spells ("[" ++ toString n ++ " x " ++ text ++ "]")
      (.leftBracket :: .integer n :: .keyword "x" :: (toks ++ [.rightBracket])) := by
  intro rest us _ hr
  have hn : n < span 127 := Nat.lt_trans hn (by decide)
  have htail := h _ _ (apart_literal "]" (by decide))
    (lexes_literal "]" [.rightBracket] (by decide) hr)
  have hmid := lexes_nat hn (apart_literal " x " (by decide))
    (lexes_literal " x " [.keyword "x"] (by decide) htail)
  have hall := lexes_literal "[" [.leftBracket] (by decide) hmid
  simpa only [String.toList_append, List.append_assoc, List.cons_append, List.nil_append] using hall

mutual

theorem spells : (t : Ty) → t.Fits → Spells t.text t.tokens
  | void, _ => by simpa [text, tokens] using spells_word "void" (by decide)
  | half, _ => by simpa [text, tokens] using spells_word "half" (by decide)
  | float, _ => by simpa [text, tokens] using spells_word "float" (by decide)
  | double, _ => by simpa [text, tokens] using spells_word "double" (by decide)
  | label, _ => by simpa [text, tokens] using spells_word "label" (by decide)
  | metadata, _ => by simpa [text, tokens] using spells_word "metadata" (by decide)
  | int bits, h => by
    intro rest us hap hr
    simp only [text, tokens, String.toList_append, List.append_assoc, List.cons_append,
      List.nil_append]
    exact lexes_intType (by simpa [Fits] using h) hap hr
  | ptr t, h => by
    simp only [text, tokens]
    exact (spells t (by simpa [Fits] using h)).before "*" [.star] (by decide) (by decide)
  | named name, _ => by simpa [text, tokens] using spells_named name
  | array n t, h => by
    simp only [Fits] at h
    simpa only [text, tokens] using spells_array h.1 (spells t h.2)
  | struct [], _ => by
    simp only [text, tokens, tokensAll, commaTokens]
    have := spells_empty.behind "\x7b\x7d" [.leftBrace, .rightBrace] (by decide)
    simpa using this
  | struct (t :: ts), h => by
    simp only [Fits] at h
    have hall := spells_commas (spellsAll (t :: ts) h)
    have := (hall.behind "\x7b " [.leftBrace] (by decide)).before " \x7d" [.rightBrace]
      (by decide) (by decide)
    simpa only [text, texts, tokens, List.cons_append, List.nil_append] using this
  | func r ts varArg, h => by
    simp only [Fits] at h
    have hdots : List.Forall₂ Spells (if varArg then ["..."] else [])
        (if varArg then [[Token.ellipsis]] else []) := by
      cases varArg with
      | false => exact .nil
      | true => exact .cons (fun _ _ hap hr => lexes_ellipsis hap hr) .nil
    have hall := spells_commas (List.rel_append (spellsAll ts h.2) hdots)
    have := ((spells r h.1).between " (" [.leftParen] (by decide) (by decide) hall).before ")"
      [.rightParen] (by decide) (by decide)
    simpa only [text, tokens, List.append_assoc, List.cons_append, List.nil_append] using this

theorem spellsAll : (ts : List Ty) → AllFit ts → List.Forall₂ Spells (texts ts) (tokensAll ts)
  | [], _ => by
    simp only [texts, tokensAll]
    exact .nil
  | t :: ts, h => by
    simp only [AllFit] at h
    simp only [texts, tokensAll]
    exact .cons (spells t h.1) (spellsAll ts h.2)

end

end Ty

namespace Assembly

/-! ## 4. Terms -/

mutual

/-- The tokens of a term. -/
def Term.tokens : Term → List Token
  | .local s => [s.localToken]
  | .global s => [s.globalToken]
  | .int v => [.integer v]
  | .bool b => [.keyword (if b then "true" else "false")]
  | .float bits => [floatToken bits]
  | .null => [.keyword "null"]
  | .undef => [.keyword "undef"]
  | .zero => [.keyword "zeroinitializer"]
  | .bytes data => [.bytes data]
  | .array elements =>
    .leftBracket :: (commaTokens (TypedTerm.tokensAll elements) ++ [.rightBracket])
  | .struct fields => .leftBrace :: (commaTokens (TypedTerm.tokensAll fields) ++ [.rightBrace])
  | .cast op value target =>
    .keyword op.name :: .leftParen ::
      (value.tokens ++ .keyword "to" :: (target.tokens ++ [.rightParen]))
  | .gep inbounds source base indices =>
    .keyword "getelementptr" :: ((if inbounds then [.keyword "inbounds"] else []) ++
      .leftParen :: (commaTokens (source.tokens :: base.tokens :: TypedTerm.tokensAll indices) ++
        [.rightParen]))

/-- The tokens of a term behind its type. -/
def TypedTerm.tokens : TypedTerm → List Token
  | .mk ty term => ty.tokens ++ term.tokens

/-- The tokens of each typed term of a list. -/
def TypedTerm.tokensAll : List TypedTerm → List (List Token)
  | [] => []
  | t :: ts => t.tokens :: TypedTerm.tokensAll ts

end

theorem TypedTerm.tokensAll_eq_map (ts : List TypedTerm) :
    TypedTerm.tokensAll ts = ts.map TypedTerm.tokens := by
  induction ts with
  | nil => simp [TypedTerm.tokensAll]
  | cons t ts ih => simp [TypedTerm.tokensAll, ih]

/-! ## 5. Global names -/

/-- The symbol that a function's or global's name is written as. -/
def globalSymbol (name : String) : Symbol :=
  if isNumeral name then .numbered (digitsValue name.toList) else .named name

/-- A name that its symbol gives back: a numeral is written without leading zeros and fits. -/
def Recovers (name : String) : Prop :=
  isNumeral name = true → ∃ n, n < span 32 ∧ name = toString n

theorem isNumeral_toString (n : Nat) : isNumeral (toString n) = true := by
  obtain ⟨d, ds, hds, -⟩ := toDigits_cons n
  simp only [isNumeral, Bool.and_eq_true, bne_iff_ne, ne_eq, List.all_eq_true, toList_toString]
  refine ⟨?_, isDigit_toDigits n⟩
  intro h
  rw [← String.toList_inj, toList_toString, hds] at h
  cases h

theorem globalSymbol_spec {name : String} (h : Recovers name) :
    globalName name = "@" ++ (globalSymbol name).text ∧ (globalSymbol name).Fits ∧
      (globalSymbol name).key = name := by
  cases hn : isNumeral name with
  | false => simp [globalName, globalSymbol, hn, Symbol.text, Symbol.Fits, Symbol.key]
  | true =>
    obtain ⟨n, hlt, rfl⟩ := h hn
    simp only [globalName, globalSymbol, hn, if_true, Symbol.text, Symbol.Fits, Symbol.key,
      toList_toString, digitsValue_toDigits]
    exact ⟨trivial, hlt, trivial⟩

theorem spells_globalName {name : String} (h : Recovers name) :
    Spells (globalName name) [(globalSymbol name).globalToken] := by
  obtain ⟨htext, hfits, -⟩ := globalSymbol_spec h
  intro rest us hap hr
  rw [htext, String.toList_append, List.append_assoc]
  exact lexes_global hfits hap hr

/-! ## 6. Values -/

/-- What values are written with as tokens: a program, and the symbols of the local values. -/
structure Spelling where
  program : Program
  symbol : Value → Option Symbol

namespace Spelling

/-- The symbol of a local value; every value that is written has one. -/
def symbolOf (sp : Spelling) (v : Value) : Symbol :=
  (sp.symbol v).getD (.numbered 0)

mutual

/-- A value as it is written. -/
def term (sp : Spelling) : Value → Term
  | .instr id => .local (sp.symbolOf (.instr id))
  | .arg f i => .local (sp.symbolOf (.arg f i))
  | .block b => .local (sp.symbolOf (.block b))
  | .func f => .global (globalSymbol (sp.program.func f).name)
  | .global g => .global (globalSymbol (sp.program.global g).name)
  | .int bits v => if bits = 1 then .bool (v != 0) else .int v
  | .float _ bits => .float bits
  | .null _ => .null
  | .undef _ => .undef
  | .zero _ => .zero
  | .bytes data => .bytes data
  | .array _ vs => .array (sp.terms vs)
  | .struct _ vs => .struct (sp.terms vs)
  | .cast op v target => .cast op (.mk (sp.program.valueTy v) (sp.term v)) target
  | .gep inbounds source base indices _ =>
    .gep inbounds source (.mk (sp.program.valueTy base) (sp.term base)) (sp.terms indices)

/-- Values as they are written, each behind its type. -/
def terms (sp : Spelling) : List Value → List TypedTerm
  | [] => []
  | v :: vs => .mk (sp.program.valueTy v) (sp.term v) :: sp.terms vs

end

/-- A value as it is written behind its type. -/
def typed (sp : Spelling) (v : Value) : TypedTerm :=
  .mk (sp.program.valueTy v) (sp.term v)

theorem terms_eq_map (sp : Spelling) (vs : List Value) : sp.terms vs = vs.map sp.typed := by
  induction vs with
  | nil => simp [terms]
  | cons v vs ih => simp [terms, typed, ih]

/-- The local value has a symbol that can be read back. -/
def HasSymbol (sp : Spelling) (v : Value) : Prop :=
  ∃ s, sp.symbol v = some s ∧ s.Fits

/-- An integer constant as reading gives it where a value of the type is expected: a truth value,
    or a normalized number of the type's width. -/
def isRead (ty : Ty) (bits : Nat) (v : Int) : Prop :=
  (bits = 1 ∧ (v = 0 ∨ v = -1)) ∨
    (bits ≠ 1 ∧ bits = ty.width?.getD 64 ∧ Word.isSigned v = true ∧
      Word.normalize (Word.normalize v 64) bits = v)

mutual

/-- Written where a value of the type is expected, the value can be read back: its symbols and
    numbers and the types inside it are those that reading gives. -/
def Prints (sp : Spelling) (ty : Ty) : Value → Prop
  | .instr id => sp.HasSymbol (.instr id)
  | .arg f i => sp.HasSymbol (.arg f i)
  | .block _ => False
  | .func f => f.index < sp.program.functions.size ∧ Recovers (sp.program.func f).name
  | .global g => g.index < sp.program.globals.size ∧ Recovers (sp.program.global g).name
  | .int bits v => isRead ty bits v
  | .float t _ | .null t | .undef t | .zero t => t = ty
  | .bytes _ => True
  | .array t vs | .struct t vs => t = ty ∧ sp.AllPrint vs
  | .cast _ v target =>
    ((sp.program.valueTy v).Fits ∧ sp.Prints (sp.program.valueTy v) v) ∧ target.Fits
  | .gep _ source base indices t =>
    source.Fits ∧ ((sp.program.valueTy base).Fits ∧ sp.Prints (sp.program.valueTy base) base) ∧
      sp.AllPrint indices ∧ t = sp.program.gepTy source indices

/-- The values can be read back, each behind its own type. -/
def AllPrint (sp : Spelling) : List Value → Prop
  | [] => True
  | v :: vs =>
    ((sp.program.valueTy v).Fits ∧ sp.Prints (sp.program.valueTy v) v) ∧ sp.AllPrint vs

end

/-- The printer writes the symbols of the spelling, and its program agrees with that of the
    spelling in everything but the names of local values. -/
structure Shows (sp : Spelling) (pr : Printer) : Prop where
  ty : ∀ v, pr.program.valueTy v = sp.program.valueTy v
  func : ∀ f, (pr.program.func f).name = (sp.program.func f).name
  signature : ∀ f, (pr.program.func f).signature = (sp.program.func f).signature
  global : ∀ g, (pr.program.global g).name = (sp.program.global g).name
  instr : ∀ id, pr.slots.instrs.lookup id = (sp.symbol (.instr id)).map Symbol.text
  arg : ∀ f i, pr.slots.args.lookup (f, i) = (sp.symbol (.arg f i)).map Symbol.text
  block : ∀ b, pr.slots.blocks.lookup b = (sp.symbol (.block b)).map Symbol.text

variable {sp : Spelling} {pr : Printer}

/-- The value can be read back behind its type. -/
def PrintsTyped (sp : Spelling) (v : Value) : Prop :=
  (sp.program.valueTy v).Fits ∧ sp.Prints (sp.program.valueTy v) v

theorem allPrint_iff {vs : List Value} : sp.AllPrint vs ↔ ∀ v ∈ vs, sp.PrintsTyped v := by
  induction vs with
  | nil => simp [AllPrint]
  | cons v vs ih => simp [AllPrint, PrintsTyped, ih]

theorem spells_slot {v : Value} {slot : Option String} {label : String} (h : sp.HasSymbol v)
    (hslot : slot = (sp.symbol v).map Symbol.text) :
    Spells (Printer.slotText slot label) [(sp.symbolOf v).localToken] := by
  obtain ⟨s, hs, hfits⟩ := h
  intro rest us hap hr
  rw [hslot, hs]
  simp only [Printer.slotText, Option.map_some, Option.getD_some, String.toList_append,
    List.append_assoc, symbolOf, hs]
  exact lexes_local hfits hap hr

theorem isSigned_bounds {v : Int} (h : Word.isSigned v = true) :
    -(span 127 : Int) ≤ v ∧ v < span 127 := by
  simp only [Word.isSigned, Bool.and_eq_true, decide_eq_true_eq] at h
  unfold Word.least Word.greatest at h
  have h63 : (span 63 : Int) = 9223372036854775808 := rfl
  have h127 : (span 127 : Int) = 170141183460469231731687303715884105728 := rfl
  omega

theorem castOp_isWord (op : CastOp) : isWord op.name.toList = true := by
  cases op <;> decide

theorem spells_typed_of {ty : Ty} {text : String} {toks : List Token} (hty : ty.Fits)
    (h : Spells text toks) : Spells (ty.text ++ " " ++ text) (ty.tokens ++ toks) := by
  have := (ty.spells hty).between " " [] (by decide) (by decide) h
  rwa [List.append_nil] at this

theorem spells_cast (op : CastOp) {text : String} {toks : List Token} {target : Ty}
    (h : Spells text toks) (ht : target.Fits) :
    Spells (op.name ++ " (" ++ text ++ " to " ++ target.text ++ ")")
      (.keyword op.name :: .leftParen ::
        (toks ++ .keyword "to" :: (target.tokens ++ [.rightParen]))) := by
  have hinner := (h.between " to " [.keyword "to"] (by decide) (by decide)
    (target.spells ht)).before ")" [.rightParen] (by decide) (by decide)
  have := (spells_word op.name (castOp_isWord op)).between " (" [.leftParen] (by decide)
    (by decide) hinner
  simpa only [String.append_assoc, List.append_assoc, List.cons_append, List.nil_append] using this

theorem spells_gep (inbounds : Bool) {texts : List String} {tokss : List (List Token)}
    (h : List.Forall₂ Spells texts tokss) :
    Spells ("getelementptr " ++ (if inbounds then "inbounds " else "") ++ "(" ++
        Ty.commas texts ++ ")")
      (.keyword "getelementptr" :: ((if inbounds then [.keyword "inbounds"] else []) ++
        .leftParen :: (commaTokens tokss ++ [.rightParen]))) := by
  have hinner := (spells_commas h).before ")" [.rightParen] (by decide) (by decide)
  cases inbounds with
  | false =>
    have := hinner.behind "getelementptr (" [.keyword "getelementptr", .leftParen] (by decide)
    simpa [String.append_assoc] using this
  | true =>
    have := hinner.behind "getelementptr inbounds ("
      [.keyword "getelementptr", .keyword "inbounds", .leftParen] (by decide)
    simpa [String.append_assoc] using this

theorem spells_intConstant {ty : Ty} {bits : Nat} {v : Int} (h : isRead ty bits v) :
    Spells (if bits = 1 then (if v = 0 then "false" else "true") else toString v)
      (if bits = 1 then Term.bool (v != 0) else Term.int v).tokens := by
  rcases h with ⟨rfl, rfl | rfl⟩ | ⟨hbits, -, hsigned, -⟩
  · exact spells_word "false" (by decide)
  · exact spells_word "true" (by decide)
  · simp only [hbits, if_false, Term.tokens]
    obtain ⟨hl, hu⟩ := isSigned_bounds hsigned
    exact fun _ _ hap hr => lexes_int hl hu hap hr

mutual

theorem spells_value (hsh : sp.Shows pr) :
    (ty : Ty) → (v : Value) → sp.Prints ty v → Spells (pr.value v) (sp.term v).tokens
  | _, .instr id, h => by
    simp only [Prints] at h
    rw [Printer.value.eq_def]
    simp only [term, Term.tokens]
    exact spells_slot h (hsh.instr id)
  | _, .arg f i, h => by
    simp only [Prints] at h
    rw [Printer.value.eq_def]
    simp only [term, Term.tokens]
    exact spells_slot h (hsh.arg f i)
  | _, .block b, h => by
    simp only [Prints] at h
  | _, .func f, h => by
    simp only [Prints] at h
    rw [Printer.value.eq_def]
    simpa only [term, Term.tokens, hsh.func] using spells_globalName h.2
  | _, .global g, h => by
    simp only [Prints] at h
    rw [Printer.value.eq_def]
    simpa only [term, Term.tokens, hsh.global] using spells_globalName h.2
  | _, .int bits v, h => by
    simp only [Prints] at h
    rw [Printer.value.eq_def]
    simp only [term]
    exact spells_intConstant h
  | _, .float _ bits, _ => by
    rw [Printer.value.eq_def]
    simp only [term, Term.tokens]
    exact fun _ _ hap hr => lexes_float bits hap hr
  | _, .null _, _ => by
    rw [Printer.value.eq_def]
    simpa only [term, Term.tokens] using spells_word "null" (by decide)
  | _, .undef _, _ => by
    rw [Printer.value.eq_def]
    simpa only [term, Term.tokens] using spells_word "undef" (by decide)
  | _, .zero _, _ => by
    rw [Printer.value.eq_def]
    simpa only [term, Term.tokens] using spells_word "zeroinitializer" (by decide)
  | _, .bytes data, _ => by
    rw [Printer.value.eq_def]
    simp only [term, Term.tokens]
    intro rest us _ hr
    simp only [String.toList_append, List.append_assoc, List.cons_append, List.nil_append]
    exact lexes_bytes data hr
  | _, .array _ vs, h => by
    simp only [Prints] at h
    rw [Printer.value.eq_def]
    simp only [term, Term.tokens]
    have := ((spells_commas (spells_values hsh vs h.2)).behind "[" [.leftBracket]
      (by decide)).before "]" [.rightBracket] (by decide) (by decide)
    simpa only [List.cons_append, List.nil_append] using this
  | _, .struct _ vs, h => by
    simp only [Prints] at h
    rw [Printer.value.eq_def]
    simp only [term, Term.tokens]
    have := ((spells_commas (spells_values hsh vs h.2)).behind "\x7b " [.leftBrace]
      (by decide)).before " \x7d" [.rightBrace] (by decide) (by decide)
    simpa only [List.cons_append, List.nil_append] using this
  | _, .cast op v target, h => by
    simp only [Prints] at h
    have := spells_cast op (spells_typed_of h.1.1 (spells_value hsh _ v h.1.2)) h.2
    rw [Printer.value.eq_def]
    simpa only [Printer.tyBefore, term, Term.tokens, TypedTerm.tokens, hsh.ty,
      String.append_assoc, List.append_assoc] using this
  | _, .gep inbounds source base indices _, h => by
    simp only [Prints] at h
    have hbase := spells_typed_of h.2.1.1 (spells_value hsh _ base h.2.1.2)
    have := spells_gep inbounds
      (.cons (source.spells h.1) (.cons hbase (spells_values hsh indices h.2.2.1)))
    rw [Printer.value.eq_def]
    simpa only [Printer.tyBefore, term, Term.tokens, TypedTerm.tokens, hsh.ty]
      using this

theorem spells_values (hsh : sp.Shows pr) : (vs : List Value) → sp.AllPrint vs →
    List.Forall₂ Spells (pr.typedAll vs) (TypedTerm.tokensAll (sp.terms vs))
  | [], _ => by
    simp only [Printer.typedAll, terms, TypedTerm.tokensAll]
    exact .nil
  | v :: vs, h => by
    simp only [AllPrint] at h
    simp only [Printer.typedAll, Printer.tyBefore, terms, TypedTerm.tokensAll, TypedTerm.tokens,
      hsh.ty]
    exact .cons (spells_typed_of h.1.1 (spells_value hsh _ v h.1.2)) (spells_values hsh vs h.2)

end

theorem spells_typed (hsh : sp.Shows pr) {v : Value} (h : sp.PrintsTyped v) :
    Spells (pr.typed v) (sp.typed v).tokens := by
  simp only [Printer.typed, Printer.tyBefore, typed, TypedTerm.tokens, hsh.ty]
  exact spells_typed_of h.1 (spells_value hsh _ v h.2)

/-! ## 7. Two printers -/

variable {pr₂ : Printer}

theorem slotText_eq {v : Value} {slot slot₂ : Option String} {label label₂ : String}
    (h : sp.HasSymbol v) (hslot : slot = (sp.symbol v).map Symbol.text)
    (hslot₂ : slot₂ = (sp.symbol v).map Symbol.text) :
    Printer.slotText slot label = Printer.slotText slot₂ label₂ := by
  obtain ⟨s, hs, -⟩ := h
  rw [hslot, hslot₂, hs]
  rfl

mutual

theorem value_eq (hsh : sp.Shows pr) (hsh₂ : sp.Shows pr₂) :
    (ty : Ty) → (v : Value) → sp.Prints ty v → pr.value v = pr₂.value v
  | _, .instr id, h => by
    simp only [Prints] at h
    rw [Printer.value.eq_def pr, Printer.value.eq_def pr₂]
    exact slotText_eq h (hsh.instr id) (hsh₂.instr id)
  | _, .arg f i, h => by
    simp only [Prints] at h
    rw [Printer.value.eq_def pr, Printer.value.eq_def pr₂]
    exact slotText_eq h (hsh.arg f i) (hsh₂.arg f i)
  | _, .block b, h => by
    simp only [Prints] at h
  | _, .func f, _ => by
    rw [Printer.value.eq_def pr, Printer.value.eq_def pr₂]
    simp only [hsh.func, hsh₂.func]
  | _, .global g, _ => by
    rw [Printer.value.eq_def pr, Printer.value.eq_def pr₂]
    simp only [hsh.global, hsh₂.global]
  | _, .int _ _, _ | _, .float _ _, _ | _, .null _, _ | _, .undef _, _ | _, .zero _, _
  | _, .bytes _, _ => by rw [Printer.value.eq_def pr, Printer.value.eq_def pr₂]
  | _, .array _ vs, h => by
    simp only [Prints] at h
    rw [Printer.value.eq_def pr, Printer.value.eq_def pr₂]
    simp only [typedAll_eq hsh hsh₂ vs h.2]
  | _, .struct _ vs, h => by
    simp only [Prints] at h
    rw [Printer.value.eq_def pr, Printer.value.eq_def pr₂]
    simp only [typedAll_eq hsh hsh₂ vs h.2]
  | _, .cast _ v _, h => by
    simp only [Prints] at h
    rw [Printer.value.eq_def pr, Printer.value.eq_def pr₂]
    simp only [Printer.tyBefore, hsh.ty, hsh₂.ty, value_eq hsh hsh₂ _ v h.1.2]
  | _, .gep _ _ base indices _, h => by
    simp only [Prints] at h
    rw [Printer.value.eq_def pr, Printer.value.eq_def pr₂]
    simp only [Printer.tyBefore, hsh.ty, hsh₂.ty,
      value_eq hsh hsh₂ _ base h.2.1.2, typedAll_eq hsh hsh₂ indices h.2.2.1]

theorem typedAll_eq (hsh : sp.Shows pr) (hsh₂ : sp.Shows pr₂) :
    (vs : List Value) → sp.AllPrint vs → pr.typedAll vs = pr₂.typedAll vs
  | [], _ => by simp only [Printer.typedAll]
  | v :: vs, h => by
    simp only [AllPrint] at h
    simp only [Printer.typedAll, Printer.tyBefore, hsh.ty, hsh₂.ty, value_eq hsh hsh₂ _ v h.1.2,
      typedAll_eq hsh hsh₂ vs h.2]

end

/-- Two printers that show the same spelling write the same value. -/
theorem typed_eq (hsh : sp.Shows pr) (hsh₂ : sp.Shows pr₂) {v : Value} (h : sp.PrintsTyped v) :
    pr.typed v = pr₂.typed v := by
  simp only [Printer.typed, Printer.tyBefore, hsh.ty, hsh₂.ty, value_eq hsh hsh₂ _ v h.2]

end Spelling

end Assembly

end QirProfile
