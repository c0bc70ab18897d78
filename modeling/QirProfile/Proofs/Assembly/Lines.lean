import QirProfile.Proofs.Assembly.Writable

/-!
# The text of a program as entities

A text is lines, and each line is tokens: `SpellsLines` says so in front of everything that follows.
A function is written as a draft (`IsFuncDraft`), with the draft of each of its blocks and
instructions; the draft carries the type that a call writes, which no tree holds.
-/

namespace QirProfile.Assembly

open Text

variable {text : String} {toks : List Token} {group : Option Nat} {d : FuncDraft} {p : Program}
  {attributes : List Attribute} {groups : List (List Attribute)}

/-! ## 1. Lines as tokens -/

/-- The lines are read as these tokens in front of everything. -/
def SpellsLines (lines : List String) (toks : List Token) : Prop :=
  ∀ rest us, Lexes rest us → Lexes ((unlines lines).toList ++ rest) (toks ++ us)

section

variable {lines lines' : List String} {toks toks' : List Token} {text : String}

@[simp] theorem unlines_nil : unlines [] = "" := rfl

theorem unlines_append (xs ys : List String) : unlines (xs ++ ys) = unlines xs ++ unlines ys := by
  simp [unlines]

theorem unlines_singleton (x : String) : unlines [x] = x ++ "\n" := by
  simp [unlines]

theorem spellsLines_nil : SpellsLines [] [] := fun _ _ h => h

theorem SpellsLines.append (h : SpellsLines lines toks) (h' : SpellsLines lines' toks') :
    SpellsLines (lines ++ lines') (toks ++ toks') := by
  intro rest us hr
  rw [unlines_append, String.toList_append, List.append_assoc, List.append_assoc]
  exact h _ _ (h' rest us hr)

theorem Spells.line (h : Spells text toks) : SpellsLines [text] toks := by
  intro rest us hr
  rw [unlines_singleton, String.toList_append, List.append_assoc]
  exact h _ _ (apart_literal "\n" (by decide)) (lexes_blank (by decide) hr)

theorem spellsLines_empty : SpellsLines [""] [] := spells_empty.line

theorem SpellsLines.cons (h : Spells text toks) (h' : SpellsLines lines toks') :
    SpellsLines (text :: lines) (toks ++ toks') := by
  rw [← List.singleton_append]
  exact h.line.append h'

theorem SpellsLines.behind_empty (h : SpellsLines lines toks) : SpellsLines ("" :: lines) toks := by
  have hcons := SpellsLines.cons spells_empty h
  rwa [List.nil_append] at hcons

theorem SpellsLines.spaced (h : SpellsLines lines toks) : SpellsLines (spaced lines) toks := by
  unfold Assembly.spaced
  split
  · rename_i hempty
    rwa [List.isEmpty_iff.mp hempty] at h
  · exact h.behind_empty

theorem spellsLines_comment {text : List Char} (h : '\n' ∉ text) :
    SpellsLines [String.ofList (';' :: text)] [] := by
  intro rest us hr
  rw [unlines_singleton, String.toList_append, String.toList_ofList, List.append_assoc]
  exact lexes_comment h (lexes_blank (by decide) hr)

theorem spellsLines_label {s : Symbol} (h : s.Fits) :
    SpellsLines [s.text ++ ":"] [s.labelToken] := by
  intro rest us hr
  rw [unlines_singleton, String.toList_append, String.toList_append, List.append_assoc,
    List.append_assoc]
  exact lexes_label h (lexes_blank (by decide) hr)

theorem spellsLines_flatMap {α β : Type} {f : α → List String} {g : β → List Token} {xs : List α}
    {ys : List β} (h : List.Forall₂ (fun x y => SpellsLines (f x) (g y)) xs ys) :
    SpellsLines (xs.flatMap f) (ys.flatMap g) := by
  induction h with
  | nil => exact spellsLines_nil
  | cons hxy _ ih =>
    rw [List.flatMap_cons, List.flatMap_cons]
    exact hxy.append ih

theorem spellsLines_map {α β : Type} {f : α → String} {g : β → List Token} {xs : List α}
    {ys : List β} (h : List.Forall₂ (fun x y => Spells (f x) (g y)) xs ys) :
    SpellsLines (xs.map f) (ys.flatMap g) := by
  induction h with
  | nil => exact spellsLines_nil
  | cons hxy _ ih =>
    rw [List.map_cons, List.flatMap_cons]
    exact SpellsLines.cons hxy ih

theorem SpellsLines.lexes (h : SpellsLines lines toks) : Lexes (unlines lines).toList toks := by
  simpa using h [] [] lexes_nil

end

/-! ## 2. Instructions and blocks -/

section

variable {α β : Type} {R : α → β → Prop}

theorem exists_forall₂ {as : List α} (h : ∀ a ∈ as, ∃ b, R a b) : ∃ bs, List.Forall₂ R as bs := by
  induction as with
  | nil => exact ⟨[], .nil⟩
  | cons a as ih =>
    obtain ⟨b, hb⟩ := h a List.mem_cons_self
    obtain ⟨bs, hbs⟩ := ih fun a ha => h a (List.mem_cons_of_mem _ ha)
    exact ⟨b :: bs, .cons hb hbs⟩

end

/-- The draft is the instruction as it is written. -/
structure IsInstrDraft (p : Program) (f : FuncId) (id : InstrId) (x : InstrDraft) : Prop where
  result : x.result =
    if (p.instr id).ty.isVoid then none else some ((spelling p f).symbolOf (.instr id))
  renders : (spelling p f).Renders (p.instr id) x.operation
  written : x.written = (spelling p f).calleeTy (p.instr id)

/-- The draft is the block as it is written: the first block has a label only if it has a name. -/
structure IsBlockDraft (p : Program) (f : FuncId) (isFirst : Bool) (b : BlockId) (d : BlockDraft) :
    Prop where
  label : d.label =
    if isFirst && (p.block b).name.isNone then none else some ((spelling p f).symbolOf (.block b))
  instrs : List.Forall₂ (IsInstrDraft p f) (p.block b).instrs d.instrs

section

variable {p : Program} {f : FuncId} (h : Printable p)
include h

theorem spells_instr {id : InstrId} (hid : id ∈ p.instrsOf f) {x : InstrDraft}
    (hx : IsInstrDraft p f id x) : Spells (Printer.instr ⟨p, slotsOf p f⟩ id) x.tokens := by
  have hop := Spelling.spells_operation (shows_slotsOf p f) hx.renders
  rw [← hx.written] at hop
  simp only [Printer.instr, InstrDraft.tokens, hx.result]
  cases hvoid : (p.instr id).ty.isVoid with
  | true => simpa using hop
  | false =>
    have hsymbol := h.hasSymbol (.instr hid (isVoid_eq_false.mp hvoid))
    have hvalue : Spells (Printer.value ⟨p, slotsOf p f⟩ (.instr id))
        [((spelling p f).symbolOf (.instr id)).localToken] :=
      Spelling.spells_value (shows_slotsOf p f) .void (.instr id)
        (by simpa only [Spelling.Prints] using hsymbol)
    have hline := hvalue.between " = " [.equals] (by decide) (by decide) hop
    simpa [String.append_assoc] using hline

theorem spells_blockLines {b : BlockId} (hb : b ∈ (p.func f).blocks) {isFirst : Bool}
    {d : BlockDraft} (hd : IsBlockDraft p f isFirst b d) :
    SpellsLines (Printer.blockLines ⟨p, slotsOf p f⟩ isFirst b) d.tokens := by
  have hlabel : SpellsLines
      (if isFirst && (p.block b).name.isNone then []
        else [((slotsOf p f).blocks.lookup b).getD "" ++ ":"])
      (d.label.map Symbol.labelToken).toList := by
    rw [hd.label]
    split
    · exact spellsLines_nil
    · obtain ⟨s, hs, hfits⟩ := h.hasSymbol (.block hb)
      have hslot : (slotsOf p f).blocks.lookup b = some s.text := by
        rw [show (slotsOf p f).blocks.lookup b = _ from (shows_slotsOf p f).block b, hs]
        rfl
      rw [hslot, Spelling.symbolOf, hs]
      exact spellsLines_label hfits
  have hinstrs : SpellsLines ((p.block b).instrs.map fun i =>
      "  " ++ Printer.instr ⟨p, slotsOf p f⟩ i) (d.instrs.flatMap InstrDraft.tokens) := by
    refine spellsLines_map ?_
    have hmem : ∀ id ∈ (p.block b).instrs, id ∈ p.instrsOf f := fun id hid =>
      List.mem_flatMap.mpr ⟨b, hb, hid⟩
    have hdrafts := (List.forall₂_and_left _ _).mpr ⟨hmem, hd.instrs⟩
    refine hdrafts.imp fun id x hx => ?_
    have hspell := (spells_instr h hx.1 hx.2).behind "  " [] (by decide)
    simpa using hspell
  have hblank : SpellsLines (if isFirst then [] else [""]) [] := by
    split
    · exact spellsLines_nil
    · exact spellsLines_empty
  have hall := (hblank.append hlabel).append hinstrs
  simpa [Printer.blockLines, BlockDraft.tokens] using hall

end

/-! ## 3. Functions -/

/-- A parameter as it is written. -/
def paramTree (p : Program) (f : FuncId) (x : Param × Nat) : Ty × Option Symbol :=
  (x.1.ty, if (p.func f).isDeclaration then none else some ((spelling p f).symbolOf (.arg f x.2)))

/-- A function as it is written, without its blocks. -/
def headTree (p : Program) (f : FuncId) (group : Option Nat) : FuncTree where
  name := (p.func f).name
  ret := (p.func f).ret
  params := (p.func f).params.zipIdx.map (paramTree p f)
  varArg := (p.func f).varArg
  linkage := (p.func f).linkage
  unnamedAddr := (p.func f).unnamedAddr
  attributes := []
  groups := group.toList
  blocks := []

/-- The draft is the function as it is written. -/
structure IsFuncDraft (p : Program) (f : FuncId) (group : Option Nat) (d : FuncDraft) : Prop where
  head : d.head = headTree p f group
  blocks : List.Forall₂ (fun x b => IsBlockDraft p f (x.2 == 0) x.1 b) (p.func f).blocks.zipIdx
    d.blocks

theorem isWord_linkage {word : String} (h : isLinkage word = true) : isWord word.toList = true := by
  simp only [isLinkage, Reader.linkages, List.contains_cons, List.contains_nil, Bool.or_eq_true,
    beq_iff_eq, Bool.or_false] at h
  rcases h with rfl | rfl | rfl | rfl | rfl | rfl | rfl | rfl | rfl | rfl | rfl <;> decide

theorem isWord_addressMarker {word : String} (h : Reader.isAddressMarker word = true) :
    isWord word.toList = true := by
  simp only [Reader.isAddressMarker, Bool.or_eq_true, beq_iff_eq] at h
  rcases h with rfl | rfl <;> decide

theorem spells_wordBefore {word : Option String} (h : ∀ w ∈ word, isWord w.toList = true)
    (ht : Spells text toks) :
    Spells (Printer.wordBefore word ++ text) (wordTokens word ++ toks) := by
  cases word with
  | none => simpa [Printer.wordBefore, wordTokens] using ht
  | some w =>
    have hword := (spells_word w (h w rfl)).between " " [] (by decide) (by decide) ht
    simpa [Printer.wordBefore, wordTokens] using hword

theorem spells_wordBehind {word : Option String} (h : ∀ w ∈ word, isWord w.toList = true)
    (ht : Spells text toks) :
    Spells (text ++ (word.map (" " ++ ·)).getD "") (toks ++ wordTokens word) := by
  cases word with
  | none => simpa [wordTokens] using ht
  | some w =>
    have hword := ht.between " " [] (by decide) (by decide) (spells_word w (h w rfl))
    simpa [wordTokens, String.append_assoc] using hword

theorem spells_groupId {n : Nat} (h : n < span 32) :
    Spells ("#" ++ toString n) [.groupId n] := by
  intro rest us hap hr
  rw [String.toList_append, List.append_assoc]
  exact lexes_groupId h hap hr

theorem spells_groupBehind (h : ∀ n ∈ group, n < span 32)
    (ht : Spells text toks) :
    Spells (text ++ (group.map fun n => " #" ++ toString n).getD "")
      (toks ++ group.toList.map Token.groupId) := by
  cases group with
  | none => simpa using ht
  | some n =>
    have hgroup := ht.between " " [] (by decide) (by decide) (spells_groupId (h n rfl))
    have htext : " #" ++ toString n = " " ++ ("#" ++ toString n) := by
      rw [← String.append_assoc]
      rfl
    rw [Option.map_some, Option.getD_some, htext, ← String.append_assoc]
    simpa using hgroup

theorem spells_ellipsis : Spells "..." [.ellipsis] := fun _ _ hap hr => lexes_ellipsis hap hr

section

variable {p : Program} {f : FuncId} (h : Printable p)
include h

theorem spells_param (hf : f.index < p.functions.size) {x : Param × Nat}
    (hx : x ∈ (p.func f).params.zipIdx) :
    Spells (if (p.func f).isDeclaration then x.1.ty.text
        else x.1.ty.text ++ " " ++ Printer.value ⟨p, slotsOf p f⟩ (.arg f x.2))
      (paramDraftTokens (paramTree p f x)) := by
  have hty := Ty.spells x.1.ty ((h.functions f hf).params x.1 (List.fst_mem_of_mem_zipIdx hx))
  simp only [paramDraftTokens, paramTree]
  split
  · simpa using hty
  · have hsymbol := h.hasSymbol (.arg (List.mem_zipIdx' hx).1)
    have hvalue : Spells (Printer.value ⟨p, slotsOf p f⟩ (.arg f x.2))
        [((spelling p f).symbolOf (.arg f x.2)).localToken] :=
      Spelling.spells_value (shows_slotsOf p f) .void (.arg f x.2)
        (by simpa only [Spelling.Prints] using hsymbol)
    simpa using hty.between " " [] (by decide) (by decide) hvalue

theorem spells_params (hf : f.index < p.functions.size) :
    Spells (Ty.commas (Printer.params ⟨p, slotsOf p f⟩ f (p.func f)))
      (functionParamTokens ((p.func f).params.zipIdx.map (paramTree p f)) (p.func f).varArg) := by
  refine spells_commas (List.rel_append ?_ ?_)
  · rw [List.forall₂_map_left_iff, List.map_map, List.forall₂_map_right_iff, List.forall₂_same]
    exact fun x hx => spells_param h hf hx
  · split
    · exact .cons spells_ellipsis .nil
    · exact .nil

theorem spells_header (hf : f.index < p.functions.size)
    (hgroup : ∀ n ∈ group, n < span 32) :
    Spells (Printer.header ⟨p, slotsOf p f⟩ f group)
      (.keyword (if (p.func f).isDeclaration then "declare" else "define") ::
        ((FuncDraft.mk (headTree p f group) []).tokens)) := by
  have hw := h.functions f hf
  have hlead := spells_wordBefore (fun w hmem => isWord_linkage (hw.linkage w hmem))
    (Ty.spells (p.func f).ret hw.ret)
  have hname := hlead.between " " [] (by decide) (by decide)
    (spells_globalName (h.names.functions _ (func_mem hf)))
  have hparams := (hname.between "(" [.leftParen] (by decide) (by decide)
    (spells_params h hf)).before ")" [.rightParen] (by decide) (by decide)
  have hbehind := spells_groupBehind hgroup (spells_wordBehind
    (fun w hmem => isWord_addressMarker (hw.unnamedAddr w hmem)) hparams)
  have hdeclare := hbehind.behind "declare " [.keyword "declare"] (by decide)
  have hdefine := hbehind.behind "define " [.keyword "define"] (by decide)
  simp only [Printer.header, FuncDraft.tokens, headTree, bodyTokens]
  cases hdecl : (p.func f).isDeclaration with
  | true => simpa [hdecl, String.append_assoc] using hdeclare
  | false => simpa [hdecl, String.append_assoc] using hdefine

omit h in
theorem isEmpty_blocks (hd : IsFuncDraft p f group d) :
    d.blocks.isEmpty = (p.func f).isDeclaration := by
  have hlen := hd.blocks.length_eq
  rw [List.length_zipIdx] at hlen
  rw [Bool.eq_iff_iff, Func.isDeclaration, List.isEmpty_iff_length_eq_zero,
    List.isEmpty_iff_length_eq_zero, hlen]

omit h in
theorem tokens_body (d : FuncDraft) :
    d.tokens = (FuncDraft.mk d.head []).tokens ++ bodyTokens d.blocks := by
  simp [FuncDraft.tokens, bodyTokens]

omit h in
theorem bodyTokens_of_ne {blocks : List BlockDraft} (hne : blocks.isEmpty = false) :
    bodyTokens blocks = .leftBrace :: (blocks.flatMap BlockDraft.tokens ++ [.rightBrace]) := by
  cases blocks with
  | nil => cases hne
  | cons b bs => rfl

theorem spells_functionLines (hf : f.index < p.functions.size)
    (hgroup : ∀ n ∈ group, n < span 32) (hd : IsFuncDraft p f group d) :
    SpellsLines (Printer.functionLines p f group) (Entity.function d).tokens := by
  have hhead := spells_header h hf hgroup
  have hempty := isEmpty_blocks hd
  rw [Entity.tokens, hempty, tokens_body, hd.head]
  simp only [Printer.functionLines]
  cases hdecl : (p.func f).isDeclaration with
  | true =>
    rw [hdecl] at hempty hhead
    rw [List.isEmpty_iff.mp hempty, bodyTokens, List.append_nil]
    exact hhead.line
  | false =>
    rw [hdecl] at hempty hhead
    have hopen := hhead.before " \x7b" [.leftBrace] (by decide) (by decide)
    have hclose := spells_empty.behind "\x7d" [.rightBrace] (by decide)
    have hbody : SpellsLines ((p.func f).blocks.zipIdx.flatMap fun x =>
        Printer.blockLines ⟨p, slotsOf p f⟩ (x.2 == 0) x.1) (d.blocks.flatMap BlockDraft.tokens) := by
      refine spellsLines_flatMap ?_
      have hmem : ∀ x ∈ (p.func f).blocks.zipIdx, x.1 ∈ (p.func f).blocks := fun x hx =>
        List.fst_mem_of_mem_zipIdx hx
      have hblocks := (List.forall₂_and_left _ _).mpr ⟨hmem, hd.blocks⟩
      exact hblocks.imp fun x b hx => spells_blockLines h hx.1 hx.2
    have hall := (hopen.line.append hbody).append hclose.line
    rw [bodyTokens_of_ne hempty]
    simpa using hall

theorem exists_instrDraft {id : InstrId} (hid : id ∈ p.instrsOf f) :
    ∃ x, IsInstrDraft p f id x := by
  obtain ⟨op, hop⟩ := h.instrs f id hid
  exact ⟨⟨_, op, _⟩, rfl, hop, rfl⟩

theorem exists_funcDraft (f : FuncId) (group : Option Nat) : ∃ d, IsFuncDraft p f group d := by
  have hblock : ∀ x ∈ (p.func f).blocks.zipIdx, ∃ b, IsBlockDraft p f (x.2 == 0) x.1 b := by
    intro x hx
    have hb := List.fst_mem_of_mem_zipIdx hx
    obtain ⟨instrs, hinstrs⟩ := exists_forall₂ fun id hid =>
      exists_instrDraft h (List.mem_flatMap.mpr ⟨x.1, hb, hid⟩)
    exact ⟨⟨_, instrs⟩, rfl, hinstrs⟩
  obtain ⟨blocks, hblocks⟩ := exists_forall₂ hblock
  exact ⟨⟨headTree p f group, blocks⟩, rfl, hblocks⟩

end

/-! ## 4. Attribute groups -/

/-- The number of the group that a list of attributes is written as; the empty list has none. -/
def IsGroup (groups : List (List Attribute)) (attributes : List Attribute) : Option Nat → Prop
  | none => attributes = []
  | some n => groups[n]? = some attributes

section

variable {groups final : List (List Attribute)} {attributes : List Attribute} {group : Option Nat}

theorem IsGroup.of_prefix (h : IsGroup groups attributes group) (hp : groups <+: final) :
    IsGroup final attributes group := by
  cases group with
  | none => exact h
  | some n =>
    obtain ⟨more, rfl⟩ := hp
    have hlt := (List.getElem?_eq_some_iff.mp h).1
    exact (List.getElem?_append_left hlt).trans h

theorem IsGroup.lt (h : IsGroup groups attributes group) : ∀ n ∈ group, n < groups.length := by
  rintro n rfl
  exact (List.getElem?_eq_some_iff.mp h).1

theorem groupOf_spec (groups : List (List Attribute)) (attributes : List Attribute) :
    IsGroup (groupOf groups attributes).2 attributes (groupOf groups attributes).1 ∧
      groups <+: (groupOf groups attributes).2 ∧
      (groupOf groups attributes).2.length ≤ groups.length + 1 ∧
      ∀ as ∈ (groupOf groups attributes).2, as ∈ groups ∨ as = attributes := by
  unfold groupOf
  split
  · rename_i hempty
    exact ⟨List.isEmpty_iff.mp hempty, List.prefix_refl _, Nat.le_succ _, fun as has => .inl has⟩
  · split
    · rename_i i hi
      obtain ⟨hlt, heq, -⟩ := List.findIdx?_eq_some_iff_getElem.mp hi
      refine ⟨?_, List.prefix_refl _, Nat.le_succ _, fun as has => .inl has⟩
      exact List.getElem?_eq_some_iff.mpr ⟨hlt, eq_of_beq heq⟩
    · refine ⟨List.getElem?_concat_length, List.prefix_append _ _, by simp, fun as has => ?_⟩
      rcases List.mem_append.mp has with has | has
      · exact .inl has
      · exact .inr (List.mem_singleton.mp has)

theorem functionsLines_groups (p : Program) (ids : List FuncId) :
    ∀ groups : List (List Attribute), groups <+: (functionsLines p ids groups).2 ∧
      (functionsLines p ids groups).2.length ≤ groups.length + ids.length ∧
      ∀ as ∈ (functionsLines p ids groups).2,
        as ∈ groups ∨ ∃ id ∈ ids, as = (p.func id).attributes := by
  induction ids with
  | nil => exact fun groups => ⟨List.prefix_refl _, Nat.le_refl _, fun as has => .inl has⟩
  | cons id ids ih =>
    intro groups
    obtain ⟨-, hstart, hlen, hmem⟩ := groupOf_spec groups (p.func id).attributes
    obtain ⟨hstart', hlen', hmem'⟩ := ih (groupOf groups (p.func id).attributes).2
    refine ⟨hstart.trans hstart', ?_, fun as has => ?_⟩
    · rw [List.length_cons]
      exact hlen'.trans (by omega)
    · rcases hmem' as has with has | ⟨id', hid', rfl⟩
      · rcases hmem as has with has | rfl
        · exact .inl has
        · exact .inr ⟨id, List.mem_cons_self, rfl⟩
      · exact .inr ⟨id', List.mem_cons_of_mem _ hid', rfl⟩

theorem spells_functionsLines (h : Printable p) {ids : List FuncId}
    (hids : ∀ id ∈ ids, id.index < p.functions.size) : ∀ groups : List (List Attribute),
      (functionsLines p ids groups).2.length ≤ span 32 → ∃ drafts : List FuncDraft,
        List.Forall₂ (fun id d => ∃ group, IsGroup (functionsLines p ids groups).2
          (p.func id).attributes group ∧ IsFuncDraft p id group d) ids drafts ∧
        SpellsLines (functionsLines p ids groups).1
          (drafts.flatMap fun d => (Entity.function d).tokens) := by
  induction ids with
  | nil => exact fun groups _ => ⟨[], .nil, spellsLines_nil⟩
  | cons id ids ih =>
    intro groups hlen
    obtain ⟨hgroup, hstart, -, -⟩ := groupOf_spec groups (p.func id).attributes
    have hstart' := (functionsLines_groups p ids (groupOf groups (p.func id).attributes).2).1
    have hfinal := hgroup.of_prefix hstart'
    obtain ⟨drafts, hdrafts, hlines⟩ := ih (fun id hid => hids id (List.mem_cons_of_mem _ hid))
      (groupOf groups (p.func id).attributes).2 hlen
    obtain ⟨d, hd⟩ := exists_funcDraft h id (groupOf groups (p.func id).attributes).1
    refine ⟨d :: drafts, .cons ⟨_, hfinal, hd⟩ hdrafts, ?_⟩
    have hfunc := spells_functionLines h (hids id List.mem_cons_self)
      (fun n hn => Nat.lt_of_lt_of_le (hfinal.lt n hn) hlen) hd
    exact (hfunc.append hlines).behind_empty

end

/-! ## 5. Attributes -/

theorem spells_string {s : String} (h : '"' ∉ s.toList) :
    Spells ("\"" ++ s ++ "\"") [.string (asRead s)] := by
  intro rest us hap hr
  simp only [String.toList_append, List.append_assoc]
  rw [quote_append]
  exact lexes_quoted h rfl hap hr

theorem spells_escaped (s : String) :
    Spells ("\"" ++ escapeBytes (utf8Bytes s) ++ "\"") [.string s] := by
  intro rest us hap hr
  simp only [String.toList_append, List.append_assoc]
  exact lexes_escaped s hap hr

theorem spells_attribute {a : Attribute} (hword : ∀ word, a = .keyword word → isWord word.toList = true)
    (htexts : ∀ s ∈ attributeTexts a, '"' ∉ s.toList) :
    Spells a.text (attributeTokens (attributeAsRead a)) := by
  cases a with
  | keyword word => exact spells_word word (hword word rfl)
  | pair key value =>
    have hkey := spells_string (htexts key List.mem_cons_self)
    cases value with
    | none => exact hkey
    | some value =>
      have hpair := hkey.between "=" [.equals] (by decide) (by decide)
        (spells_string (htexts value (List.mem_cons_of_mem _ List.mem_cons_self)))
      have htext : (Attribute.pair key (some value)).text =
          "\"" ++ key ++ "\"" ++ "=" ++ ("\"" ++ value ++ "\"") := by
        have hmid : "\"=\"" = "\"" ++ ("=" ++ "\"") := rfl
        simp only [Attribute.text, hmid, String.append_assoc]
      rw [htext]
      exact hpair

theorem spells_attributes (hwords : ∀ word, .keyword word ∈ attributes → isWord word.toList = true)
    (htexts : ∀ a ∈ attributes, ∀ s ∈ attributeTexts a, '"' ∉ s.toList) :
    Spells (" ".intercalate (attributes.map Attribute.text))
      (attributes.flatMap fun a => attributeTokens (attributeAsRead a)) := by
  induction attributes with
  | nil => exact spells_empty
  | cons a rest ih =>
    have ha := spells_attribute (fun word hword => hwords word (hword ▸ List.mem_cons_self))
      (htexts a List.mem_cons_self)
    have hrest := ih (fun word hword => hwords word (List.mem_cons_of_mem _ hword))
      fun b hb => htexts b (List.mem_cons_of_mem _ hb)
    cases rest with
    | nil => simpa using ha
    | cons b rest =>
      have hboth := ha.between " " [] (by decide) (by decide) hrest
      simpa using hboth

theorem spells_groupLines (hlen : groups.length ≤ span 32)
    (hwords : ∀ as ∈ groups, ∀ word, .keyword word ∈ as → isWord word.toList = true)
    (htexts : ∀ as ∈ groups, ∀ a ∈ as, ∀ s ∈ attributeTexts a, '"' ∉ s.toList) :
    SpellsLines (groupLines groups)
      (groups.zipIdx.flatMap fun x => (Entity.group x.2 (x.1.map attributeAsRead)).tokens) := by
  refine spellsLines_map (List.forall₂_same.mpr fun x hx => ?_)
  have hid : x.2 < span 32 := Nat.lt_of_lt_of_le (List.mem_zipIdx' hx).1 hlen
  have hmem := List.fst_mem_of_mem_zipIdx hx
  have hattributes := spells_attributes (hwords x.1 hmem) (htexts x.1 hmem)
  have hline := ((((spells_groupId hid).behind "attributes " [.keyword "attributes"]
    (by decide)).between " = \x7b " [.equals, .leftBrace] (by decide) (by decide)
    hattributes).before " \x7d" [.rightBrace] (by decide) (by decide))
  have hlead : "attributes #" = "attributes " ++ "#" := rfl
  simp only [hlead, String.append_assoc] at hline ⊢
  simpa [Entity.tokens, List.flatMap_map] using hline

/-! ## 6. Header lines, named types and globals -/

/-- The entities of the header. -/
def headerEntities (p : Program) : List Entity :=
  (p.sourceFile.map Entity.sourceFile).toList ++
    (p.dataLayout.map fun s => .dataLayout (asRead s)).toList ++
    (p.targetTriple.map fun s => .targetTriple (asRead s)).toList

theorem spellsLines_option {text : Option String} {line : String → String}
    {entity : String → Entity} (h : ∀ s ∈ text, Spells (line s) (entity s).tokens) :
    SpellsLines (text.map line).toList ((text.map entity).toList.flatMap Entity.tokens) := by
  cases text with
  | none => exact spellsLines_nil
  | some s => simpa using (h s rfl).line

theorem spells_headerLines (h : Quotable p) :
    SpellsLines (headerLines p) ((headerEntities p).flatMap Entity.tokens) := by
  have hcomment : SpellsLines ["; ModuleID = '" ++ p.name ++ "'"] [] := by
    have hname : '\n' ∉ (" ModuleID = '" ++ p.name ++ "'").toList := by simp [h.name]
    have hcomment := spellsLines_comment hname
    rwa [show String.ofList (';' :: (" ModuleID = '" ++ p.name ++ "'").toList) =
      "; ModuleID = '" ++ p.name ++ "'" from by simp [← String.toList_inj]] at hcomment
  have hfile : ∀ s ∈ p.sourceFile, Spells
      ("source_filename = \"" ++ escapeBytes (utf8Bytes s) ++ "\"") (Entity.sourceFile s).tokens := by
    intro s _
    have hline := (spells_escaped s).behind "source_filename = "
      [.keyword "source_filename", .equals] (by decide)
    have hlead : "source_filename = \"" = "source_filename = " ++ "\"" := rfl
    simpa only [Entity.tokens, List.cons_append, List.nil_append, hlead, String.append_assoc]
      using hline
  have hlayout : ∀ s ∈ p.dataLayout, Spells ("target datalayout = \"" ++ s ++ "\"")
      (Entity.dataLayout (asRead s)).tokens := by
    intro s hs
    have hline := (spells_string (h.dataLayout s hs)).behind "target datalayout = "
      [.keyword "target", .keyword "datalayout", .equals] (by decide)
    have hlead : "target datalayout = \"" = "target datalayout = " ++ "\"" := rfl
    simpa only [Entity.tokens, List.cons_append, List.nil_append, hlead, String.append_assoc]
      using hline
  have htriple : ∀ s ∈ p.targetTriple, Spells ("target triple = \"" ++ s ++ "\"")
      (Entity.targetTriple (asRead s)).tokens := by
    intro s hs
    have hline := (spells_string (h.targetTriple s hs)).behind "target triple = "
      [.keyword "target", .keyword "triple", .equals] (by decide)
    have hlead : "target triple = \"" = "target triple = " ++ "\"" := rfl
    simpa only [Entity.tokens, List.cons_append, List.nil_append, hlead, String.append_assoc]
      using hline
  have hall := ((hcomment.append (spellsLines_option hfile)).append
    (spellsLines_option hlayout)).append (spellsLines_option htriple)
  simpa [headerLines, headerEntities] using hall

theorem spells_typeLines (h : Printable p) : SpellsLines (typeLines p)
    (p.namedTypes.flatMap fun x => (Entity.namedType x.1 x.2).tokens) := by
  refine spellsLines_map (List.forall₂_same.mpr fun x hx => ?_)
  have hbody : Spells ((x.2.map Ty.text).getD "opaque")
      ((x.2.map Ty.tokens).getD [.keyword "opaque"]) := by
    cases hx2 : x.2 with
    | none => exact spells_word "opaque" (by decide)
    | some t => exact Ty.spells t (h.typeBodies x hx t hx2)
  have hline := (Ty.spells (.named x.1) True.intro).between " = type " [.equals, .keyword "type"]
    (by decide) (by decide) hbody
  simpa [Entity.tokens, Ty.tokens] using hline

/-- A global as it is written. -/
def globalTree (p : Program) (g : Global) : GlobalTree where
  name := globalSymbol g.name
  ty := g.ty
  linkage := g.linkage
  unnamedAddr := g.unnamedAddr
  constant := g.constant
  initializer := g.initializer.map (globalSpelling p).term
  align := g.align

theorem spells_globalKind (constant : Bool)
    (h : Spells text toks) : Spells ((if constant then "constant " else "global ") ++ text)
      (.keyword (if constant then "constant" else "global") :: toks) := by
  cases constant with
  | true => exact h.behind "constant " [.keyword "constant"] (by decide)
  | false => exact h.behind "global " [.keyword "global"] (by decide)

theorem spells_global (h : Printable p) {g : GlobalId}
    (hg : g.index < p.globals.size) : Spells (Printer.global ⟨p, {}⟩ (p.global g))
      (Entity.global (globalTree p (p.global g))).tokens := by
  have hw := h.globals g hg
  have hty := Ty.spells (p.global g).ty hw.ty
  have hinit : Spells ((p.global g).ty.text ++
      ((p.global g).initializer.map fun v => " " ++ Printer.value ⟨p, {}⟩ v).getD "")
      ((p.global g).ty.tokens ++
        (((globalTree p (p.global g)).initializer.map Term.tokens).getD [])) := by
    simp only [globalTree]
    cases hv : (p.global g).initializer with
    | none => simpa using hty
    | some v =>
      have hvalue := Spelling.spells_value (shows_global p) _ v (hw.initializer v hv)
      simpa [String.append_assoc] using hty.between " " [] (by decide) (by decide) hvalue
  have halign := Spelling.spells_align hw.align hinit
  have hwords := spells_wordBefore (fun w hmem => isWord_linkage (hw.linkage w hmem))
    (spells_wordBefore (fun w hmem => isWord_addressMarker (hw.unnamedAddr w hmem))
      (spells_globalKind (p.global g).constant halign))
  have hline := (spells_globalName (h.names.globals _ (global_mem hg))).between " = " [.equals] (by decide)
    (by decide) hwords
  cases hconstant : (p.global g).constant <;>
    simpa [Printer.global, Entity.tokens, GlobalTree.tokens, globalTree, String.append_assoc,
      hconstant] using hline

/-! ## 7. The whole text -/

/-- The entities that the text of a program consists of, given its functions and attribute
    groups. -/
def entitiesOf (p : Program) (drafts : List FuncDraft) (groups : List (List Attribute)) :
    List Entity :=
  headerEntities p ++ p.namedTypes.map (fun x => .namedType x.1 x.2) ++
    p.globalIds.map (fun g => .global (globalTree p (p.global g))) ++ drafts.map .function ++
    groups.zipIdx.map fun x => .group x.2 (x.1.map attributeAsRead)

theorem liveFunctions_of_writable (h : Printable p) :
    p.liveFunctions = (List.range p.functions.size).map FuncId.mk := by
  refine List.filter_eq_self.mpr fun id hid => ?_
  obtain ⟨k, hk, rfl⟩ := List.mem_map.mp hid
  simp [(h.functions ⟨k⟩ (List.mem_range.mp hk)).live]

theorem mem_liveFunctions (h : Printable p) {id : FuncId} (hid : id ∈ p.liveFunctions) :
    id.index < p.functions.size := by
  rw [liveFunctions_of_writable h] at hid
  obtain ⟨k, hk, rfl⟩ := List.mem_map.mp hid
  exact List.mem_range.mp hk

theorem lexes_print (h : Printable p) (hq : Quotable p) : ∃ drafts groups,
    List.Forall₂ (fun id d => ∃ group, IsGroup groups (p.func id).attributes group ∧
      IsFuncDraft p id group d) p.liveFunctions drafts ∧
    Lexes (print p).toList ((entitiesOf p drafts groups).flatMap Entity.tokens) := by
  have hlive := liveFunctions_of_writable h
  obtain ⟨-, hlen, hmem⟩ := functionsLines_groups p p.liveFunctions []
  have hcount : (functionsLines p p.liveFunctions []).2.length ≤ span 32 := by
    rw [hlive, List.length_map, List.length_range, List.length_nil, Nat.zero_add] at hlen
    rw [hlive]
    exact hlen.trans h.bounded.functions
  have hgroup : ∀ as ∈ (functionsLines p p.liveFunctions []).2, ∃ id, as = (p.func id).attributes := by
    intro as has
    rcases hmem as has with has | ⟨id, -, has⟩
    · cases has
    · exact ⟨id, has⟩
  have hwords : ∀ as ∈ (functionsLines p p.liveFunctions []).2, ∀ word, .keyword word ∈ as →
      isWord word.toList = true := by
    intro as has word hword
    obtain ⟨id, rfl⟩ := hgroup as has
    exact hq.words _ (func_mem_of_attribute hword) word hword
  have htexts : ∀ as ∈ (functionsLines p p.liveFunctions []).2, ∀ a ∈ as, ∀ s ∈ attributeTexts a,
      '"' ∉ s.toList := by
    intro as has a ha s hs
    obtain ⟨id, rfl⟩ := hgroup as has
    exact hq.texts s (mem_rawTexts_of_attribute ha hs)
  obtain ⟨drafts, hdrafts, hfunctions⟩ :=
    spells_functionsLines h (fun id hid => mem_liveFunctions h hid) [] hcount
  have hglobals : SpellsLines (p.globalIds.map fun id => Printer.global ⟨p, {}⟩ (p.global id))
      (p.globalIds.flatMap fun id => (Entity.global (globalTree p (p.global id))).tokens) := by
    refine spellsLines_map (List.forall₂_same.mpr fun id hid => spells_global h ?_)
    obtain ⟨k, hk, rfl⟩ := List.mem_map.mp hid
    exact List.mem_range.mp hk
  have hall := ((((spells_headerLines hq).append (spells_typeLines h).spaced).append
    hglobals.spaced).append hfunctions).append (spells_groupLines hcount hwords htexts).spaced
  refine ⟨drafts, _, hdrafts, ?_⟩
  simp only [entitiesOf, List.flatMap_append, List.flatMap_map]
  exact hall.lexes

/-! ## 8. What is written can be read back -/

section

variable {p : Program} {f : FuncId} {group : Option Nat} {d : FuncDraft}

theorem IsFuncDraft.of_mem (hd : IsFuncDraft p f group d) {b : BlockDraft} (hb : b ∈ d.blocks) :
    ∃ id ∈ (p.func f).blocks, ∃ isFirst, IsBlockDraft p f isFirst id b := by
  obtain ⟨x, hx, hdraft⟩ := forall₂_mem_right hd.blocks hb
  exact ⟨x.1, List.fst_mem_of_mem_zipIdx hx, _, hdraft⟩

theorem IsFuncDraft.label_isSome (hd : IsFuncDraft p f group d) {b : BlockDraft}
    (hb : b ∈ d.blocks.tail) : b.label.isSome = true := by
  have hblocks := hd.blocks
  generalize d.blocks = bs at hb hblocks
  cases hblocks' : (p.func f).blocks with
  | nil =>
    rw [hblocks', List.zipIdx_nil, List.forall₂_nil_left_iff] at hblocks
    rw [hblocks] at hb
    cases hb
  | cons id ids =>
    rw [hblocks', List.zipIdx_cons, List.forall₂_cons_left_iff] at hblocks
    obtain ⟨b₀, bs', -, htail, rfl⟩ := hblocks
    obtain ⟨x, hx, hdraft⟩ := forall₂_mem_right htail hb
    have hne : (x.2 == 0) = false := by
      have hle := List.le_snd_of_mem_zipIdx hx
      simp only [beq_eq_false_iff_ne]
      omega
    rw [hdraft.label, hne]
    rfl

theorem IsFuncDraft.reads (h : Printable p) (hf : f.index < p.functions.size)
    (hd : IsFuncDraft p f group d) : d.Reads := by
  have hw := h.functions f hf
  have hhead := hd.head
  refine ⟨?_, ?_, ?_, ?_, ?_, ?_, ?_, fun b hb => hd.label_isSome hb, ?_⟩
  · rw [hhead]
    exact hw.linkage
  · rw [hhead]
    exact hw.ret
  · rw [hhead]
    exact h.names.functions _ (func_mem hf)
  · rw [hhead]
    intro x hx
    obtain ⟨y, hy, rfl⟩ := List.mem_map.mp hx
    exact hw.params y.1 (List.fst_mem_of_mem_zipIdx hy)
  · rw [hhead]
    exact hw.unnamedAddr
  · rw [hhead]
    rfl
  · intro b hb _ hempty
    obtain ⟨id, hid, _, hdraft⟩ := hd.of_mem (List.mem_of_mem_head? hb)
    have hinstrs := hdraft.instrs
    rw [hempty, List.forall₂_nil_right_iff] at hinstrs
    exact h.filled f id hid hinstrs
  · intro x hx
    obtain ⟨b, hb, hx⟩ := List.mem_flatMap.mp hx
    obtain ⟨id, hid, _, hdraft⟩ := hd.of_mem hb
    obtain ⟨i, hi, hinstr⟩ := forall₂_mem_right hdraft.instrs hx
    rw [hinstr.written]
    exact hinstr.renders.reads

theorem globalTree_reads (h : Printable p) {g : GlobalId} (hg : g.index < p.globals.size) :
    (globalTree p (p.global g)).Reads := by
  have hw := h.globals g hg
  refine ⟨hw.linkage, hw.unnamedAddr, hw.ty, fun t ht => ?_, hw.align⟩
  obtain ⟨v, hv, rfl⟩ := Option.map_eq_some_iff.mp ht
  exact Spelling.fits_term _ v (hw.initializer v hv)

end

/-! ## 9. The tree -/

/-- The tree of a program without lines, given its functions and attribute groups. -/
def treeOf (p : Program) (drafts : List FuncDraft) (groups : List (List Attribute)) :
    ProgramTree where
  sourceFile := p.sourceFile
  dataLayout := p.dataLayout.map asRead
  targetTriple := p.targetTriple.map asRead
  namedTypes := p.namedTypes
  globals := p.globalIds.map fun g => globalTree p (p.global g)
  functions := drafts.map FuncDraft.tree
  groups := groups.zipIdx.map fun x => (x.2, x.1.map attributeAsRead)

theorem foldl_add_map {α : Type} (entity : α → Entity)
    (put : List α → ProgramTree → ProgramTree)
    (hnil : ∀ tree, put [] tree = tree)
    (hcons : ∀ x xs tree, put (x :: xs) tree = put xs (Entity.add tree (entity x))) (xs : List α) :
    ∀ tree, (xs.map entity).foldl Entity.add tree = put xs tree := by
  induction xs with
  | nil => exact fun tree => (hnil tree).symm
  | cons x xs ih =>
    intro tree
    rw [List.map_cons, List.foldl_cons, ih, hcons]

theorem foldl_add_header (p : Program) : (headerEntities p).foldl Entity.add {} =
    { sourceFile := p.sourceFile, dataLayout := p.dataLayout.map asRead
      targetTriple := p.targetTriple.map asRead } := by
  unfold headerEntities
  cases p.sourceFile <;> cases p.dataLayout <;> cases p.targetTriple <;> rfl

theorem foldl_add_entities (p : Program) (drafts : List FuncDraft)
    (groups : List (List Attribute)) :
    (entitiesOf p drafts groups).foldl Entity.add {} = treeOf p drafts groups := by
  have htypes := foldl_add_map (fun x : String × Option Ty => .namedType x.1 x.2)
    (fun xs tree => { tree with namedTypes := tree.namedTypes ++ xs })
    (by simp) (by simp [Entity.add])
  have hglobals := foldl_add_map (fun g => .global (globalTree p (p.global g)))
    (fun gs tree =>
      { tree with globals := tree.globals ++ gs.map fun g => globalTree p (p.global g) })
    (by simp) (by simp [Entity.add])
  have hfunctions := foldl_add_map Entity.function
    (fun ds tree => { tree with functions := tree.functions ++ ds.map FuncDraft.tree })
    (by simp) (by simp [Entity.add])
  have hgroups := foldl_add_map
    (fun x : List Attribute × Nat => .group x.2 (x.1.map attributeAsRead))
    (fun xs tree =>
      { tree with groups := tree.groups ++ xs.map fun x => (x.2, x.1.map attributeAsRead) })
    (by simp) (by simp [Entity.add])
  rw [entitiesOf, List.foldl_append, List.foldl_append, List.foldl_append, List.foldl_append,
    foldl_add_header, htypes, hglobals, hfunctions, hgroups]
  rfl

/-! ## 10. Reading the text -/

theorem typesFirst_entities (p : Program) (drafts : List FuncDraft)
    (groups : List (List Attribute)) : TypesFirst (entitiesOf p drafts groups) := by
  have hfront : ∀ e ∈ headerEntities p ++ p.namedTypes.map (fun x => Entity.namedType x.1 x.2),
      e.isGlobal = false := by
    intro e he
    simp only [headerEntities, List.mem_append, Option.mem_toList,
      Option.map_eq_some_iff, List.mem_map] at he
    obtain ((⟨s, -, rfl⟩ | ⟨s, -, rfl⟩) | ⟨s, -, rfl⟩) | ⟨x, -, rfl⟩ := he <;> rfl
  have hback : ∀ e ∈ p.globalIds.map (fun g => Entity.global (globalTree p (p.global g))) ++
      (drafts.map Entity.function ++ groups.zipIdx.map fun x => .group x.2 (x.1.map attributeAsRead)),
      e.isNamedType = false := by
    intro e he
    simp only [List.mem_append, List.mem_map] at he
    obtain ⟨g, -, rfl⟩ | ⟨d, -, rfl⟩ | ⟨x, -, rfl⟩ := he <;> rfl
  rw [entitiesOf, List.append_assoc, List.append_assoc]
  refine List.pairwise_append.mpr ⟨List.pairwise_of_forall_mem_list ?_,
    List.pairwise_of_forall_mem_list ?_, fun _ _ e he _ => hback e he⟩
  · exact fun e he _ _ hglobal => absurd hglobal (by simp [hfront e he])
  · exact fun _ _ e he _ => hback e he

/-- The text of a program is read as the tree of its drafts. -/
theorem readTree_print (h : Printable p) (hq : Quotable p) : ∃ drafts groups tree,
    List.Forall₂ (fun id d => ∃ group, IsGroup groups (p.func id).attributes group ∧
      IsFuncDraft p id group d) p.liveFunctions drafts ∧
    readTree (print p) = .ok tree ∧ tree.unlined = treeOf p drafts groups := by
  obtain ⟨drafts, groups, hdrafts, hlex⟩ := lexes_print h hq
  have hreads : ∀ e ∈ entitiesOf p drafts groups, e.Reads := by
    intro e he
    simp only [entitiesOf, headerEntities, List.mem_append, Option.mem_toList,
      Option.map_eq_some_iff, List.mem_map] at he
    obtain ((((((⟨s, -, rfl⟩ | ⟨s, -, rfl⟩) | ⟨s, -, rfl⟩) | ⟨x, hx, rfl⟩) | ⟨g, hg, rfl⟩) |
      ⟨d, hd, rfl⟩) | ⟨x, -, rfl⟩) := he
    · exact True.intro
    · exact True.intro
    · exact True.intro
    · exact h.typeBodies x hx
    · obtain ⟨k, hk, rfl⟩ := List.mem_map.mp hg
      exact globalTree_reads h (List.mem_range.mp hk)
    · obtain ⟨id, hid, _, -, hdraft⟩ := forall₂_mem_right hdrafts hd
      exact hdraft.reads h (mem_liveFunctions h hid)
    · exact True.intro
  obtain ⟨tree, htree, hunlined⟩ :=
    readTree_of_lexes hlex hreads (typesFirst_entities p drafts groups)
  rw [foldl_add_entities] at hunlined
  exact ⟨drafts, groups, tree, hdrafts, htree, hunlined⟩

end QirProfile.Assembly
