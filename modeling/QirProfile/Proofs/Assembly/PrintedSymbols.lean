import QirProfile.Proofs.Assembly.Rebuilding
import QirProfile.Proofs.Assembly.Refusing
import QirProfile.Proofs.Assembly.Scanning
import QirProfile.Proofs.Program.Copies
import QirProfile.Text.Blank

/-!
# Symbols in the text

`StandsFor text t` says that the text is cut off as the token `t` from whatever keeps apart behind
it. Quoting a name makes it stand for that name, after either sigil and before a colon.

A symbol is looked up under its key, and numbers and names have their keys in common: a name that is
written like a number is that number.
-/

namespace QirProfile.Assembly

open Text

/-! ## 1. One token in front of a text -/

/-- The text is read as this token, in the first line, in front of every text that keeps apart. -/
def StandsFor (text : String) (t : Token) : Prop :=
  ∀ after : String, Apart after.toList →
    tokens (text ++ after) = (tokens after).map (Lexeme.mk t 1 :: ·)

section

variable {c : Char} {cs : List Char} {t : Token} {text after : String}

theorem tokens_of_scan {taken rest : List Char} (htext : text.toList = c :: cs)
    (hblank : isBlank c = false) (hcomment : c ≠ ';') (hscan : scan c cs = ⟨some t, taken, rest⟩) :
    tokens text =
      (tokensFuel rest.length (1 + taken.count '\n') rest).map (Lexeme.mk t 1 :: ·) := by
  have hheads := heads_scan c cs
  rw [hscan] at hheads
  have hlen := congrArg List.length hheads.parts
  have htaken := List.length_pos_iff.mpr hheads.taken
  have htaken : 0 < taken.length := htaken
  simp only [List.length_append, List.length_cons] at hlen
  rw [tokens, htext, List.length_cons, tokensFuel]
  simp only [hblank, Bool.false_eq_true, if_false, if_neg hcomment, hscan]
  rw [tokensFuel_enough (n := cs.length) (m := rest.length) (by omega) (Nat.le_refl _)]
  cases tokensFuel rest.length (1 + taken.count '\n') rest <;> rfl

theorem tokens_of_refused (htext : text.toList = c :: cs) (hblank : isBlank c = false)
    (hcomment : c ≠ ';') (hscan : (scan c cs).token = none) : ∃ e, tokens text = .error e := by
  refine ⟨.invalidToken 1 (String.ofList (scan c cs).text), ?_⟩
  rw [tokens, htext, List.length_cons, tokensFuel]
  simp only [hblank, Bool.false_eq_true, if_false, if_neg hcomment, hscan]

theorem standsFor_of_scan (htext : text.toList = c :: cs) (hblank : isBlank c = false)
    (hcomment : c ≠ ';') (hline : '\n' ∉ text.toList)
    (hscan : ∀ rest, Apart rest → ∃ taken, scan c (cs ++ rest) = ⟨some t, taken, rest⟩) :
    StandsFor text t := by
  intro after hapart
  obtain ⟨taken, htaken⟩ := hscan after.toList hapart
  have hparts := (heads_scan c (cs ++ after.toList)).parts
  rw [htaken, ← List.cons_append, ← htext] at hparts
  obtain rfl : taken = text.toList := List.append_cancel_right hparts
  have hall : (text ++ after).toList = c :: (cs ++ after.toList) := by
    rw [String.toList_append, htext, List.cons_append]
  rw [tokens_of_scan hall hblank hcomment htaken, List.count_eq_zero_of_not_mem hline]
  rfl

/-! ## 2. Symbols behind a sigil and in front of a colon -/

theorem code_of_not_apart {c : Char} (h : isApart c = false) :
    0x20 < c.toNat ∧ c.toNat < 0x80 := by
  have hsign : ∀ d : Char, 0x20 < d.toNat ∧ d.toNat < 0x80 → c = d →
      0x20 < c.toNat ∧ c.toNat < 0x80 := fun d hd heq => heq ▸ hd
  have hrange : ∀ low high : Char, 0x20 < low.toNat ∧ high.toNat < 0x80 →
      low.val ≤ c.val ∧ c.val ≤ high.val → 0x20 < c.toNat ∧ c.toNat < 0x80 :=
    fun low high hends hc =>
      ⟨Nat.lt_of_lt_of_le hends.1 hc.1, Nat.lt_of_le_of_lt hc.2 hends.2⟩
  simp only [isApart, Bool.and_eq_false_iff, Bool.not_eq_false', isWordChar, isWordStart,
    isAlpha_eq, Char.isDigit, Bool.or_eq_true, isUpper_iff, isLower_iff, bne_eq_false_iff_eq,
    beq_iff_eq, Bool.and_eq_true, decide_eq_true_eq] at h
  rcases h with ((((((((h | h) | h) | h) | h) | h) | h) | h) | h)
  · exact hrange 'A' 'Z' (by decide) h
  · exact hrange 'a' 'z' (by decide) h
  · exact hsign _ (by decide) h
  · exact hsign _ (by decide) h
  · exact hsign _ (by decide) h
  · exact hsign _ (by decide) h
  · exact hrange '0' '9' (by decide) h
  · exact hsign _ (by decide) h
  · exact hsign _ (by decide) h

theorem isApart_of_blank {c : Char} (h : Text.isBlank c = true) : isApart c = true := by
  by_contra hapart
  obtain ⟨hle, hlt⟩ := code_of_not_apart (Bool.not_eq_true _ ▸ hapart)
  simp only [Text.isBlank, Bool.or_eq_true, Bool.and_eq_true, decide_eq_true_eq, beq_iff_eq] at h
  omega

theorem line_not_mem_text (s : Symbol) : '\n' ∉ s.text.toList := by
  cases s with
  | numbered n =>
    rw [Symbol.text, toList_toString]
    exact fun h => absurd (isDigit_toDigits n _ h) (by decide)
  | named name =>
    cases hbare : isBare name.toList with
    | true =>
      obtain ⟨-, -, -, -, hchars⟩ := isBare_cons hbare
      simp only [Symbol.text, quoteName, hbare, if_true]
      exact fun h => absurd (hchars _ h) (by decide)
    | false =>
      rw [Symbol.text, toList_quoteName hbare]
      intro h
      rcases List.mem_cons.mp h with h | h
      · cases h
      rcases List.mem_append.mp h with h | h
      · exact absurd (mem_escapeBytes h).1 (by decide)
      · simp at h

variable {s : Symbol}

theorem standsFor_local (hs : s.Fits) : StandsFor ("%" ++ s.text) s.localToken := by
  have htext : ("%" ++ s.text).toList = '%' :: s.text.toList := by simp
  refine standsFor_of_scan htext rfl (by decide) ?_ fun rest hapart => scan_local hs hapart
  simpa using line_not_mem_text s

theorem standsFor_global (hs : s.Fits) : StandsFor ("@" ++ s.text) s.globalToken := by
  have htext : ("@" ++ s.text).toList = '@' :: s.text.toList := by simp
  refine standsFor_of_scan htext rfl (by decide) ?_ fun rest hapart => scan_global hs hapart
  simpa using line_not_mem_text s

theorem standsFor_label (hs : s.Fits) : StandsFor (s.text ++ ":") s.labelToken := by
  obtain ⟨c, cs, -, htext, hblank, hcomment, -⟩ := scan_label hs []
  have hsplit : (s.text ++ ":").toList = c :: cs := by simpa using htext
  refine standsFor_of_scan hsplit hblank hcomment ?_ fun rest _ => ?_
  · simpa using line_not_mem_text s
  · obtain ⟨d, ds, taken, htext', -, -, hscan⟩ := scan_label hs rest
    have hsame : c :: (cs ++ rest) = d :: ds := by
      rw [← htext', ← List.cons_append, ← hsplit]
      simp
    cases hsame
    exact ⟨taken, hscan⟩

theorem tokens_blank (h : ∀ c ∈ after.toList, isBlank c = true) : tokens after = .ok [] := by
  have hall : ∀ (cs : List Char), (∀ c ∈ cs, isBlank c = true) → ∀ line,
      tokensFuel cs.length line cs = .ok [] := by
    intro cs
    induction cs with
    | nil => exact fun _ _ => rfl
    | cons c cs ih =>
      intro h line
      obtain ⟨hc, hcs⟩ := List.forall_mem_cons.mp h
      rw [List.length_cons, tokensFuel, if_pos hc]
      exact ih hcs _
  exact hall _ h 1

theorem apart_of_head {cs : List Char} (h : ∀ c ∈ cs.head?, isApart c = true) : Apart cs := by
  cases cs with
  | nil => trivial
  | cons c cs => exact h c rfl

/-- Behind the text, or at its end, stands white space. -/
def StartsBlank (after : String) : Prop := ∀ c ∈ after.toList.head?, Text.isBlank c = true

theorem StartsBlank.apart (h : StartsBlank after) : Apart after.toList :=
  apart_of_head fun c hc => isApart_of_blank (h c hc)

/-- Quoted names are read back after either sigil and before a colon, and escaped bytes are
    unescaped. -/
theorem quoting_undone (s after : String) (data : List UInt8) (h : StartsBlank after) :
    tokens ("%" ++ quoteName s ++ after) =
      (tokens after).map (Lexeme.mk (.localName s) 1 :: ·) ∧
    tokens ("@" ++ quoteName s ++ after) =
      (tokens after).map (Lexeme.mk (.globalName s) 1 :: ·) ∧
    tokens (quoteName s ++ ":" ++ after) =
      (tokens after).map (Lexeme.mk (.labelName s) 1 :: ·) ∧
    ((∀ c ∈ after.toList, isBlank c = true) → tokens after = .ok []) ∧
    unescapeBytes (utf8Bytes (escapeBytes data)) = data := by
  have hfits : (Symbol.named s).Fits := trivial
  refine ⟨standsFor_local hfits after h.apart, standsFor_global hfits after h.apart,
    standsFor_label hfits after h.apart, tokens_blank, ?_⟩
  rw [utf8Bytes, escapeBytes, String.toList_ofList, unescapeBytes_escape]

theorem quoting_undone_mixed : StartsBlank " %0" ∧
    tokens ("%" ++ quoteName "7\\41 \"λ\n" ++ " %0") =
      .ok [⟨.localName "7\\41 \"λ\n", 1⟩, ⟨.localId 0, 1⟩] := by
  have h : StartsBlank " %0" := by
    intro c hc
    cases hc
    rfl
  exact ⟨h, (quoting_undone _ " %0" [] h).1.trans rfl⟩

end

/-! ## 3. Symbols that are read back -/

/-- The text is read as this symbol, by itself and in front of every text that keeps apart. -/
def Denotes (reader : Reader Symbol) (text : String) (s : Symbol) : Prop :=
  ∃ t, StandsFor text t ∧ ∀ line xs, reader ⟨⟨t, line⟩ :: xs, line⟩ = .ok (s, ⟨xs, line⟩)

theorem denotes_local {s : Symbol} (hs : s.Fits) :
    Denotes Reader.localSymbol ("%" ++ s.text) s :=
  ⟨s.localToken, standsFor_local hs, fun _ _ => by cases s <;> rfl⟩

theorem denotes_global {s : Symbol} (hs : s.Fits) :
    Denotes Reader.globalSymbol ("@" ++ s.text) s :=
  ⟨s.globalToken, standsFor_global hs, fun _ _ => by cases s <;> rfl⟩

/-- A numeral behind the sigil is read by its value alone, if that fits. -/
theorem denotes_numeral_iff {name : String} (hname : isNumeral name = true) {s : Symbol} :
    Denotes Reader.globalSymbol ("@" ++ name) s ↔
      digitsValue name.toList < span 32 ∧ s = .numbered (digitsValue name.toList) := by
  simp only [isNumeral, Bool.and_eq_true, bne_iff_ne, ne_eq, List.all_eq_true] at hname
  have hne : name.toList ≠ [] := fun h => hname.1 (String.toList_eq_nil_iff.mp h)
  have hscan : ∀ rest, Apart rest → scan '@' (name.toList ++ rest) =
      ⟨(fits32? (digitsValue name.toList)).map .globalId, '@' :: name.toList, rest⟩ :=
    fun _ hapart => scanSymbol_digits '@' .globalName .globalId hne hname.2 hapart
  have htext : ("@" ++ name).toList = '@' :: name.toList := by simp
  constructor
  · rintro ⟨t, hstands, hreads⟩
    have halone : tokens ("@" ++ name) = .ok [⟨t, 1⟩] := by
      have hempty := hstands "" trivial
      rwa [String.append_empty] at hempty
    have hscan := hscan [] trivial
    rw [List.append_nil] at hscan
    by_cases hlt : digitsValue name.toList < span 32
    · rw [fits32?, if_pos hlt] at hscan
      rw [tokens_of_scan htext rfl (by decide) hscan] at halone
      cases halone
      cases hreads 1 []
      exact ⟨hlt, rfl⟩
    · have hnone : (scan '@' name.toList).token = none := by
        rw [hscan, fits32?, if_neg hlt]
        rfl
      obtain ⟨e, he⟩ := tokens_of_refused htext rfl (by decide) hnone
      rw [he] at halone
      cases halone
  · rintro ⟨hlt, rfl⟩
    refine ⟨.globalId (digitsValue name.toList), ?_, fun _ _ => rfl⟩
    refine standsFor_of_scan htext rfl (by decide) ?_ fun rest hapart =>
      ⟨'@' :: name.toList, ?_⟩
    · rw [htext, List.mem_cons, not_or]
      exact ⟨by decide, fun h => absurd (hname.2 _ h) (by decide)⟩
    · rw [hscan rest hapart, fits32?, if_pos hlt]
      rfl

theorem global_recovers_iff (name : String) :
    (∃ s, Denotes Reader.globalSymbol (globalName name) s ∧ s.key = name) ↔ Recovers name := by
  constructor
  · rintro ⟨s, h, hkey⟩ hname
    rw [globalName, if_pos hname] at h
    obtain ⟨hlt, rfl⟩ := (denotes_numeral_iff hname).mp h
    exact ⟨_, hlt, hkey.symm⟩
  · intro h
    obtain ⟨htext, hfits, hkey⟩ := globalSymbol_spec h
    exact ⟨_, htext ▸ denotes_global hfits, hkey⟩

/-! ## 4. The symbols of a body -/

section

variable {p : Program} {f : FuncId} {t : FuncTree}

theorem listedOnce_of_sound (h : p.Sound) : ListedOnce p where
  blocks := h.nodup_blocks
  instrs := h.nodup_instrs
  parents _ _ _ hb hc := Option.some.inj ((h.mem_instrs.mp hb).symm.trans (h.mem_instrs.mp hc))

/-- The parameters of a function and the results of its instructions. -/
def namedValues (p : Program) (f : FuncId) : List Value :=
  (List.range (p.func f).params.length).map (Value.arg f) ++
    ((p.instrsOf f).filter fun i => !(p.instr i).ty.isVoid).map Value.instr

/-- The blocks of a function. -/
def blockValues (p : Program) (f : FuncId) : List Value := (p.func f).blocks.map Value.block

theorem isLocal_namedValues : ∀ v ∈ namedValues p f, IsLocal p f v := by
  intro v hv
  rcases List.mem_append.mp hv with hv | hv
  · obtain ⟨i, hi, rfl⟩ := List.mem_map.mp hv
    exact .arg (List.mem_range.mp hi)
  · obtain ⟨i, hi, rfl⟩ := List.mem_map.mp hv
    obtain ⟨hi, hvoid⟩ := List.mem_filter.mp hi
    exact .instr hi (isVoid_eq_false.mp (by simpa using hvoid))

theorem isLocal_blockValues : ∀ v ∈ blockValues p f, IsLocal p f v := by
  intro v hv
  obtain ⟨b, hb, rfl⟩ := List.mem_map.mp hv
  exact .block hb

theorem nodup_namedValues (h : p.Sound) : (namedValues p f).Nodup := by
  refine List.nodup_append.mpr ⟨?_, ?_, ?_⟩
  · exact List.nodup_range.map fun i j hij => by cases hij; rfl
  · exact ((h.nodup_instrsOf f).filter _).map fun i j hij => Value.instr.inj hij
  · intro v hv w hw
    obtain ⟨i, -, rfl⟩ := List.mem_map.mp hv
    obtain ⟨j, -, rfl⟩ := List.mem_map.mp hw
    exact nofun

theorem nodup_blockValues (h : p.Sound) : (blockValues p f).Nodup :=
  (h.nodup_blocks f).map fun _ _ hbc => Value.block.inj hbc

/-- One of the values is written under a name that is the number of another one. -/
def SharesNumber (p : Program) (f : FuncId) (vs : List Value) : Prop :=
  ∃ v ∈ vs, ∃ w ∈ vs, ∃ n, (spelling p f).symbolOf v = .named (toString n) ∧
    (spelling p f).symbolOf w = .numbered n

theorem nodup_keys_iff (h : ListedOnce p) {vs : List Value} (hlocal : ∀ v ∈ vs, IsLocal p f v)
    (hnodup : vs.Nodup) :
    ((vs.map (spelling p f).symbolOf).map Symbol.key).Nodup ↔ ¬ SharesNumber p f vs := by
  rw [List.map_map]
  constructor
  · rintro hkeys ⟨v, hv, w, hw, n, hname, hnumber⟩
    have hkey : (Symbol.key ∘ (spelling p f).symbolOf) v =
        (Symbol.key ∘ (spelling p f).symbolOf) w := by
      simp only [Function.comp_apply, hname, hnumber, Symbol.key]
    rw [List.inj_on_of_nodup_map hkeys hv hw hkey, hnumber] at hname
    cases hname
  · intro hapart
    refine hnodup.map_on fun v hv w hw hkey => ?_
    rcases Symbol.key_eq_iff.mp hkey with heq | ⟨n, ⟨hname, hnumber⟩ | ⟨hnumber, hname⟩⟩
    · exact symbolOf_injective h (hlocal v hv) (hlocal w hw) heq
    · exact absurd ⟨v, hv, w, hw, n, hname, hnumber⟩ hapart
    · exact absurd ⟨w, hw, v, hv, n, hname, hnumber⟩ hapart

/-! ## 5. Trees with these symbols -/

/-- The tree has the symbols that the function is written with: parameters and results their own,
    and blocks their labels. The entry is without a label if it has no name. -/
structure Carries (p : Program) (f : FuncId) (t : FuncTree) : Prop where
  params : t.params.map Prod.snd =
    (List.range (p.func f).params.length).map fun i => some ((spelling p f).symbolOf (.arg f i))
  results : t.results = ((p.instrsOf f).filter fun i => !(p.instr i).ty.isVoid).map fun i =>
    (spelling p f).symbolOf (.instr i)
  labels : t.blocks.map BlockTree.label = (p.func f).blocks.zipIdx.map fun x =>
    if x.2 == 0 && (p.block x.1).name.isNone then none
    else some ((spelling p f).symbolOf (.block x.1))

instance (p : Program) (f : FuncId) (t : FuncTree) : Decidable (Carries p f t) :=
  decidable_of_iff (_ ∧ _ ∧ _) ⟨fun h => ⟨h.1, h.2.1, h.2.2⟩, fun h => ⟨h.1, h.2, h.3⟩⟩

theorem symbolsFrom_some (symbols : List Symbol) :
    ∀ slot, symbolsFrom slot (symbols.map some) = symbols := by
  induction symbols with
  | nil => exact fun _ => rfl
  | cons s symbols ih => exact fun slot => congrArg (s :: ·) (ih _)

theorem Naming.next_afterAll (ds : List (Value × Option String)) : ∀ naming : Naming,
    ((naming.symbols ds).map Prod.snd).foldl nextSlot naming.next = (naming.afterAll ds).next := by
  induction ds with
  | nil => exact fun _ => rfl
  | cons d ds ih =>
    obtain ⟨v, name⟩ := d
    intro naming
    have hnext : nextSlot naming.next (naming.symbol name) = (naming.after name).next := by
      cases name <;> rfl
    rw [symbols, List.map_cons, List.foldl_cons, hnext, ih]
    rfl

theorem Carries.paramSymbols (h : Carries p f t) : t.paramSymbols =
    (List.range (p.func f).params.length).map fun i => (spelling p f).symbolOf (.arg f i) := by
  have hsome := List.map_map (f := fun i => (spelling p f).symbolOf (.arg f i)) (g := some)
    (l := List.range (p.func f).params.length)
  rw [FuncTree.paramSymbols, h.params]
  exact (congrArg (symbolsFrom 0) hsome.symm).trans (symbolsFrom_some _ 0)

theorem Carries.entrySlot (h : Carries p f t) (hp : ListedOnce p) :
    t.entrySlot = firstSlot p f := by
  have hslots := Naming.next_afterAll (paramDefinitions p f) {}
  rw [Assembly.paramSymbols hp, List.map_map] at hslots
  rw [FuncTree.entrySlot, h.paramSymbols]
  exact hslots

theorem Carries.namedKeys (h : Carries p f t) :
    t.paramSymbols ++ t.results = (namedValues p f).map (spelling p f).symbolOf := by
  rw [h.paramSymbols, h.results, namedValues, List.map_append, List.map_map, List.map_map]
  rfl

theorem Carries.labels_eq (h : Carries p f t) (hp : ListedOnce p) :
    FuncTree.labels t = (blockValues p f).map (spelling p f).symbolOf := by
  have hlabels : FuncTree.labels t =
      (t.blocks.map BlockTree.label).map fun l => l.getD (.numbered t.entrySlot) := by
    rw [List.map_map]
    rfl
  have hzip : (blockValues p f).map (spelling p f).symbolOf =
      (p.func f).blocks.zipIdx.map fun x => (spelling p f).symbolOf (.block x.1) := by
    rw [blockValues, List.map_map, ← List.zipIdx_map_fst 0 (p.func f).blocks, List.map_map]
    simp
  rw [hlabels, h.labels, h.entrySlot hp, hzip, List.map_map]
  refine List.map_congr_left fun x hx => ?_
  obtain ⟨b, i⟩ := x
  simp only [Function.comp_apply]
  split
  · rename_i hentry
    simp only [Bool.and_eq_true, beq_iff_eq, Option.isNone_iff_eq_none] at hentry
    obtain ⟨rfl, hname⟩ := hentry
    have hb : (p.func f).blocks[0]? = some b := List.mem_zipIdx_iff_getElem?.mp hx
    obtain ⟨bs, hbs⟩ : ∃ bs, (p.func f).blocks = b :: bs := by
      cases hblocks : (p.func f).blocks with
      | nil => simp [hblocks] at hb
      | cons b' bs =>
        rw [hblocks] at hb
        exact ⟨bs, by rw [Option.some.inj hb]⟩
    exact (symbolOf_entry hp hbs hname).symm
  · rfl

/-! ## 6. Symbols keep their identity -/

theorem slot_of_local (h : ListedOnce p) {v : Value} (hv : IsLocal p f v) :
    (spelling p f).symbol v = some ((spelling p f).symbolOf v) := by
  obtain ⟨s, hs, -⟩ := exists_symbol h hv
  rw [Spelling.symbolOf, hs]
  rfl

theorem value_of_local (h : ListedOnce p) {v : Value} (hv : IsLocal p f v) :
    Printer.value ⟨p, slotsOf p f⟩ v = "%" ++ ((spelling p f).symbolOf v).text := by
  have hslot := slot_of_local h hv
  have hshows := shows_slotsOf p f
  have htext : ∀ {slot : Option String} (label : String),
      slot = ((spelling p f).symbol v).map Symbol.text →
        Printer.slotText slot label = "%" ++ ((spelling p f).symbolOf v).text := by
    rintro _ label rfl
    rw [hslot]
    rfl
  cases hv with
  | arg hi => exact htext _ (hshows.arg f _)
  | block hb => exact htext _ (hshows.block _)
  | instr hi hty => exact htext _ (hshows.instr _)

theorem label_of_block (h : ListedOnce p) {b : BlockId} (hb : b ∈ (p.func f).blocks) :
    ((slotsOf p f).blocks.lookup b).getD "" = ((spelling p f).symbolOf (.block b)).text := by
  rw [show (slotsOf p f).blocks.lookup b = _ from (shows_slotsOf p f).block b,
    slot_of_local h (.block hb)]
  rfl

end

/-- A global name keeps its key just if it `Recovers`; local values are written as their symbols,
    and their keys stay apart just if no name is written like another's number. -/
theorem symbols_keep_identity (name : String) (p : Program) (f : FuncId) (h : p.Sound) :
    ((∃ s, Denotes Reader.globalSymbol (globalName name) s ∧ s.key = name) ↔ Recovers name) ∧
    (∀ v, IsLocal p f v → ((spelling p f).symbolOf v).Fits →
      Denotes Reader.localSymbol (Printer.value ⟨p, slotsOf p f⟩ v) ((spelling p f).symbolOf v)) ∧
    (∀ b ∈ (p.func f).blocks, ((spelling p f).symbolOf (.block b)).Fits →
      StandsFor (((slotsOf p f).blocks.lookup b).getD "" ++ ":")
        ((spelling p f).symbolOf (.block b)).labelToken) ∧
    ∀ t, Carries p f t →
      (((t.paramSymbols ++ t.results).map Symbol.key).Nodup ↔
        ¬ SharesNumber p f (namedValues p f)) ∧
      ((t.labels.map Symbol.key).Nodup ↔ ¬ SharesNumber p f (blockValues p f)) := by
  have hlisted := listedOnce_of_sound h
  refine ⟨global_recovers_iff name, fun v hv hfits => ?_, fun b hb hfits => ?_, fun t ht => ⟨?_, ?_⟩⟩
  · rw [value_of_local hlisted hv]
    exact denotes_local hfits
  · rw [label_of_block hlisted hb]
    exact standsFor_label hfits
  · rw [ht.namedKeys]
    exact nodup_keys_iff hlisted isLocal_namedValues (nodup_namedValues h)
  · rw [ht.labels_eq hlisted]
    exact nodup_keys_iff hlisted isLocal_blockValues (nodup_blockValues h)

/-- Parameters, blocks and results with one name, and some without a name. -/
def mixedText : String :=
  "define i64 @\"f 1\"(i64 %a, i64 %0) \x7b\n" ++
  "entry:\n" ++
  "  %\"a.1\" = add i64 %a, %0\n" ++
  "  br label %a\n" ++
  "a:\n" ++
  "  %1 = add i64 %\"a.1\", 1\n" ++
  "  ret i64 %1\n" ++
  "\x7d\n"

theorem symbols_keep_identity_mixed : ∃ p tree t, read mixedText = .ok p ∧ p.Sound ∧
    readTree (print p) = .ok tree ∧ tree.functions = [t] ∧ Carries p ⟨0⟩ t ∧
    ¬ SharesNumber p ⟨0⟩ (namedValues p ⟨0⟩) ∧ ¬ SharesNumber p ⟨0⟩ (blockValues p ⟨0⟩) := by
  have hall : ((read mixedText).toOption.bind fun p => (readTree (print p)).toOption.map fun tree =>
      tree.functions.map fun t => (decide (p.Sound ∧ Carries p ⟨0⟩ t),
        (t.paramSymbols ++ t.results).map Symbol.key, t.labels.map Symbol.key)) =
      some [(true, ["a", "0", "a.1", "1"], ["entry", "a.2"])] := by
    decide +kernel
  obtain ⟨p, hp, hrest⟩ := Option.bind_eq_some_iff.mp hall
  obtain ⟨tree, htree, hfunctions⟩ := Option.map_eq_some_iff.mp hrest
  obtain ⟨t, ht, hentry⟩ := List.map_eq_singleton_iff.mp hfunctions
  obtain ⟨hcarries, hkeys⟩ := Prod.mk.inj hentry
  obtain ⟨hnamed, hlabels⟩ := Prod.mk.inj hkeys
  obtain ⟨hsound, hcarries⟩ := of_decide_eq_true hcarries
  obtain ⟨hvalues, hblocks⟩ := (symbols_keep_identity "f 1" p ⟨0⟩ hsound).2.2.2 t hcarries
  refine ⟨p, tree, t, ok_of_toOption hp, hsound, ok_of_toOption htree, ht, hcarries,
    hvalues.mp ?_, hblocks.mp ?_⟩
  · rw [hnamed]
    decide
  · rw [hlabels]
    decide

/-- A parameter has the number of a result for its name. -/
def numberText : String :=
  "define i64 @f(i64 %\"0\") \x7b\n" ++
  "entry:\n" ++
  "  %1 = add i64 %\"0\", 1\n" ++
  "  ret i64 %1\n" ++
  "\x7d\n"

/-- `007` is read as 7, and a name `0` collides with the number 0. -/
theorem number_names :
    (¬ ∃ s, Denotes Reader.globalSymbol (globalName "007") s ∧ s.key = "007") ∧
    ∃ p tree t, read numberText = .ok p ∧ p.Sound ∧ readTree (print p) = .ok tree ∧
      tree.functions = [t] ∧ Carries p ⟨0⟩ t ∧
      ¬ ((t.paramSymbols ++ t.results).map Symbol.key).Nodup ∧
      read (print p) = .error (.duplicateDefinition "%0") := by
  constructor
  · rw [global_recovers_iff]
    intro hrecovers
    obtain ⟨n, -, hn⟩ := hrecovers (by decide)
    have hvalue := congrArg (fun s : String => digitsValue s.toList) hn
    simp only [toList_toString, digitsValue_toDigits] at hvalue
    have hseven : digitsValue "007".toList = 7 := by decide
    rw [hseven] at hvalue
    rw [← hvalue] at hn
    exact absurd hn (by decide)
  · have hall : ((read numberText).toOption.bind fun p =>
        (readTree (print p)).toOption.map fun tree => tree.functions.map fun t =>
          (decide (p.Sound ∧ Carries p ⟨0⟩ t ∧
            read (print p) = .error (.duplicateDefinition "%0")),
          (t.paramSymbols ++ t.results).map Symbol.key)) = some [(true, ["0", "0"])] := by
      decide +kernel
    obtain ⟨p, hp, hrest⟩ := Option.bind_eq_some_iff.mp hall
    obtain ⟨tree, htree, hfunctions⟩ := Option.map_eq_some_iff.mp hrest
    obtain ⟨t, ht, hentry⟩ := List.map_eq_singleton_iff.mp hfunctions
    obtain ⟨hcarries, hkeys⟩ := Prod.mk.inj hentry
    obtain ⟨hsound, hcarries, hagain⟩ := of_decide_eq_true hcarries
    refine ⟨p, tree, t, ok_of_toOption hp, hsound, ok_of_toOption htree, ht, hcarries, ?_, hagain⟩
    rw [hkeys]
    decide

end QirProfile.Assembly
