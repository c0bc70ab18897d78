import QirProfile.Proofs.Assembly.Relabelling
import QirProfile.Proofs.Assembly.Resolving
import QirProfile.Proofs.Assembly.ProceedingUnits
import QirProfile.Proofs.Verify

/-!
# Programs that can be written and read again

`Writable p` collects what makes the text of a program readable: its nodes are laid out in order, its
words, names and types can be read back, and every instruction and initial value is written as
something that resolves to it.

What a text cannot carry is left out: local names that are strings of digits (`PlainNames`), texts
that would need escapes where none are read (`PlainTexts`), counts that no machine holds (`Bounded`),
and instructions whose text does not keep their type (`KeepsType`).

Under the names of its slots, every local value gets the same slot again, and nothing else of a local
name is written.
-/

namespace QirProfile.Assembly

open Text

variable {f : FuncId} {g : GlobalId} {s : String} {x : String × Value} {p : Program} {names : Names}
  {id : InstrId}

/-! ## 1. What is asked for -/

instance (name : String) : Decidable (Recovers name) :=
  decidable_of_iff (isNumeral name = true →
      digitsValue name.toList < span 32 ∧ name = toString (digitsValue name.toList)) <| by
    refine forall_congr' fun _ => ⟨fun h => ⟨_, h⟩, ?_⟩
    rintro ⟨n, hn, rfl⟩
    rw [toList_toString, digitsValue_toDigits]
    exact ⟨hn, rfl⟩

instance (p : Program) (f : FuncId) : Decidable (PlainLocals p f) :=
  inferInstanceAs (Decidable (∀ d ∈ definitions p f, ∀ s ∈ d.2, isNumeral s = false))

/-- Local names are no strings of digits; those of functions and globals may be numbers without
    leading zeros. -/
structure PlainNames (p : Program) : Prop where
  localNames : ∀ k < p.functions.size, PlainLocals p ⟨k⟩
  functions : ∀ f ∈ p.functions.toList, Recovers f.name
  globals : ∀ g ∈ p.globals.toList, Recovers g.name

instance (p : Program) : Decidable (PlainNames p) :=
  decidable_of_iff ((∀ k < p.functions.size, PlainLocals p ⟨k⟩) ∧
      (∀ f ∈ p.functions.toList, Recovers f.name) ∧ ∀ g ∈ p.globals.toList, Recovers g.name)
    ⟨fun h => ⟨h.1, h.2.1, h.2.2⟩, fun h => ⟨h.1, h.2, h.3⟩⟩

/-- A text without quotes and backslashes. -/
def IsPlain (s : String) : Prop := '"' ∉ s.toList ∧ '\\' ∉ s.toList

instance (s : String) : Decidable (IsPlain s) :=
  inferInstanceAs (Decidable ('"' ∉ s.toList ∧ '\\' ∉ s.toList))

/-- The attribute is a bare word, or its texts are plain. -/
def PlainAttribute : Attribute → Prop
  | .keyword word => isWord word.toList = true
  | .pair key value => IsPlain key ∧ ∀ s ∈ value, IsPlain s

instance : DecidablePred PlainAttribute
  | .keyword word => inferInstanceAs (Decidable (isWord word.toList = true))
  | .pair key value => inferInstanceAs (Decidable (IsPlain key ∧ ∀ s ∈ value, IsPlain s))

/-- Keyword attributes are bare words, texts that are written as they stand are plain, and the name
    of the source file stands on one line. -/
structure PlainTexts (p : Program) : Prop where
  attributes : ∀ f ∈ p.functions.toList, ∀ a ∈ f.attributes, PlainAttribute a
  dataLayout : ∀ s ∈ p.dataLayout, IsPlain s
  targetTriple : ∀ s ∈ p.targetTriple, IsPlain s
  sourceFile : ∀ s ∈ p.sourceFile, '\n' ∉ s.toList

instance (p : Program) : Decidable (PlainTexts p) :=
  decidable_of_iff ((∀ f ∈ p.functions.toList, ∀ a ∈ f.attributes, PlainAttribute a) ∧
      (∀ s ∈ p.dataLayout, IsPlain s) ∧ (∀ s ∈ p.targetTriple, IsPlain s) ∧
      ∀ s ∈ p.sourceFile, '\n' ∉ s.toList)
    ⟨fun h => ⟨h.1, h.2.1, h.2.2.1, h.2.2.2⟩, fun h => ⟨h.1, h.2, h.3, h.4⟩⟩

/-- What a text is read as that is written between quotes as it stands. -/
def asRead (s : String) : String := unescape s.toList

/-- What an attribute is read as. -/
def attributeAsRead : Attribute → Attribute
  | .keyword word => .keyword word
  | .pair key value => .pair (asRead key) (value.map asRead)

/-- The texts of an attribute that are written as they stand. -/
def attributeTexts : Attribute → List String
  | .keyword _ => []
  | .pair key value => key :: value.toList

/-- The texts of a program that are written between quotes as they stand. -/
def rawTexts (p : Program) : List String :=
  p.dataLayout.toList ++ p.targetTriple.toList ++
    p.functions.toList.flatMap fun f => f.attributes.flatMap attributeTexts

/-- The text of the program falls into its words and quoted texts: its name, which stands in a comment,
    is on one line, keyword attributes are bare words, and no quotes are written as they stand. -/
structure Quotable (p : Program) : Prop where
  name : '\n' ∉ p.name.toList
  words : ∀ f ∈ p.functions.toList, ∀ word, .keyword word ∈ f.attributes → isWord word.toList = true
  texts : ∀ s ∈ rawTexts p, '"' ∉ s.toList

/-- Every byte string in the value has a length of 64 bits. -/
def ShortBytes (v : Value) : Prop :=
  ∀ data, Value.mentions (.bytes data) v = true → data.length < span 64

/-- What a machine can hold: handles and the numbers of local values have 32 bits, lengths 64. -/
structure Bounded (p : Program) : Prop where
  functions : p.functions.size ≤ span 32
  numbers : ∀ k < p.functions.size, unnamed (definitions p ⟨k⟩) < span 32
  operands : ∀ i ∈ p.instrs.toList, ∀ v ∈ i.operands, ShortBytes v
  initials : ∀ g ∈ p.globals.toList, ∀ v ∈ g.initializer, ShortBytes v

section

variable {p : Program}

theorem func_mem (hf : f.index < p.functions.size) :
    p.func f ∈ p.functions.toList := by
  simp [Program.func, hf]

theorem global_mem (hg : g.index < p.globals.size) :
    p.global g ∈ p.globals.toList := by
  simp [Program.global, hg]

theorem instr_mem {i : InstrId} (hi : i.index < p.instrs.size) :
    p.instr i ∈ p.instrs.toList := by
  simp [Program.instr, hi]

theorem definitions_eq_nil (hf : p.functions.size ≤ f.index) :
    definitions p f = [] := by
  have hfunc : p.func f = Func.tombstone := by simp [Program.func, hf]
  rw [definitions, paramDefinitions, hfunc]
  rfl

theorem PlainNames.locals (h : PlainNames p) (f : FuncId) : PlainLocals p f := by
  rcases Nat.lt_or_ge f.index p.functions.size with hf | hf
  · exact h.localNames f.index hf
  · intro d hd
    rw [definitions_eq_nil hf] at hd
    cases hd

theorem Bounded.locals (h : Bounded p) (f : FuncId) : unnamed (definitions p f) < span 32 := by
  rcases Nat.lt_or_ge f.index p.functions.size with hf | hf
  · exact h.numbers f.index hf
  · rw [definitions_eq_nil hf]
    decide

theorem func_mem_of_attribute {a : Attribute} (ha : a ∈ (p.func f).attributes) :
    p.func f ∈ p.functions.toList := by
  rcases Nat.lt_or_ge f.index p.functions.size with hf | hf
  · exact func_mem hf
  · have hfunc : p.func f = Func.tombstone := by simp [Program.func, hf]
    rw [hfunc] at ha
    cases ha

theorem mem_rawTexts : s ∈ rawTexts p ↔ s ∈ p.dataLayout ∨ s ∈ p.targetTriple ∨
    ∃ f, ∃ a ∈ (p.func f).attributes, s ∈ attributeTexts a := by
  simp only [rawTexts, List.mem_append, Option.mem_toList, List.mem_flatMap, or_assoc]
  refine or_congr_right (or_congr_right ⟨?_, ?_⟩)
  · rintro ⟨f, hf, a, ha, hs⟩
    obtain ⟨k, hk, rfl⟩ := List.getElem_of_mem hf
    rw [Array.length_toList] at hk
    exact ⟨⟨k⟩, a, by simpa [Program.func, hk] using ha, hs⟩
  · rintro ⟨f, a, ha, hs⟩
    exact ⟨_, func_mem_of_attribute ha, a, ha, hs⟩

theorem mem_rawTexts_of_attribute {a : Attribute}
    (ha : a ∈ (p.func f).attributes) (hs : s ∈ attributeTexts a) : s ∈ rawTexts p :=
  mem_rawTexts.mpr (.inr (.inr ⟨f, a, ha, hs⟩))

theorem Quotable.dataLayout (h : Quotable p) : ∀ s ∈ p.dataLayout, '"' ∉ s.toList := fun s hs =>
  h.texts s (mem_rawTexts.mpr (.inl hs))

theorem Quotable.targetTriple (h : Quotable p) : ∀ s ∈ p.targetTriple, '"' ∉ s.toList := fun s hs =>
  h.texts s (mem_rawTexts.mpr (.inr (.inl hs)))

theorem asRead_plain (h : IsPlain s) : asRead s = s := unescape_plain h.2

end

/-- The types that the instructions of a function write for their operands. -/
def FuncTree.writtenTys (t : FuncTree) : List (List Ty) :=
  (t.blocks.flatMap BlockTree.instrs).map fun it => it.operation.writtenTys

/-- Every instruction is well typed, with these types written for its operands. -/
def IsTyped (written : List (List (List Ty))) (p : Program) : Prop :=
  ∀ (k : Nat) (tys : List (List Ty)), written[k]? = some tys →
    List.Forall₂ (fun tys id => WellTyped p tys (p.instr id)) tys (p.instrsOf ⟨k⟩)

/-- A program that was read from the tree is verified and well typed, and a text can carry its names,
    texts and numbers. -/
structure Portable (tree : ProgramTree) (p : Program) : Prop where
  verified : p.verify = .ok ()
  typed : IsTyped (tree.functions.map FuncTree.writtenTys) p
  names : PlainNames p
  texts : PlainTexts p
  bounded : Bounded p

/-! ## 2. Programs that can be written -/

/-- What global values are written with outside functions. -/
def globalSpelling (p : Program) : Spelling := ⟨p, fun _ => none⟩

/-- The words and types of a function can be read back. -/
structure FuncWritable (f : Func) : Prop where
  linkage : ∀ word ∈ f.linkage, isLinkage word = true
  ret : f.ret.Fits
  params : ∀ param ∈ f.params, param.ty.Fits
  unnamedAddr : ∀ word ∈ f.unnamedAddr, Reader.isAddressMarker word = true
  attributes : (f.attributes.map Attribute.key).Nodup
  live : f.erased = false

/-- The words and types of a global can be read back, and so can its initial value. -/
structure GlobalWritable (p : Program) (g : Global) : Prop where
  linkage : ∀ word ∈ g.linkage, isLinkage word = true
  unnamedAddr : ∀ word ∈ g.unnamedAddr, Reader.isAddressMarker word = true
  ty : g.ty.Fits
  align : ∀ n ∈ g.align, n < span 32
  initializer : ∀ v ∈ g.initializer, (globalSpelling p).Prints g.ty v

/-- The program can be written and read again, but for the texts in it that are written as they
    stand. -/
structure Printable (p : Program) : Prop where
  laid : Laid p
  typeNames : (p.namedTypes.map Prod.fst).Nodup
  typeBodies : ∀ x ∈ p.namedTypes, ∀ t ∈ x.2, t.Fits
  globalNames : (p.globals.toList.map Global.name).Nodup
  functionNames : (p.functions.toList.map Func.name).Nodup
  apart : ∀ f ∈ p.functions.toList, f.name ∉ p.globals.toList.map Global.name
  functions : ∀ f : FuncId, f.index < p.functions.size → FuncWritable (p.func f)
  globals : ∀ g : GlobalId, g.index < p.globals.size → GlobalWritable p (p.global g)
  instrs : ∀ f, ∀ id ∈ p.instrsOf f, ∃ op, (spelling p f).Renders (p.instr id) op
  filled : ∀ f, ∀ b ∈ (p.func f).blocks, (p.block b).instrs ≠ []
  names : PlainNames p
  bounded : Bounded p

/-- **The program can be written and read again.** -/
structure Writable (p : Program) : Prop extends Printable p where
  name : p.name = p.sourceFile.getD "module"
  texts : PlainTexts p

section

variable {p : Program}

theorem PlainTexts.plain (h : PlainTexts p) : ∀ s ∈ rawTexts p, IsPlain s := by
  intro s hs
  simp only [rawTexts, List.mem_append, Option.mem_toList, List.mem_flatMap] at hs
  obtain (hs | hs) | ⟨f, hf, a, ha, hs⟩ := hs
  · exact h.dataLayout s hs
  · exact h.targetTriple s hs
  · have hplain := h.attributes f hf a ha
    cases a with
    | keyword word => cases hs
    | pair key value =>
      rcases List.mem_cons.mp hs with rfl | hs
      · exact hplain.1
      · exact hplain.2 s (Option.mem_toList.mp hs)

theorem Writable.quotable (h : Writable p) : Quotable p where
  name := by
    rw [h.name]
    cases hfile : p.sourceFile with
    | none => decide
    | some s => exact h.texts.sourceFile s hfile
  words f hf word hword := h.texts.attributes f hf (.keyword word) hword
  texts s hs := (h.texts.plain s hs).1

end

/-! ## 3. Initial values -/

/-- Outside functions, no symbol stands for a value that mentions an instruction. -/
structure OutsideFunctions (names : Names) : Prop where
  locals : ∀ s v, names.local s ≠ .ok v
  globals : ∀ s v, names.global s = .ok v → ∀ id, Value.mentions (.instr id) v = false

section

variable {names : Names}

mutual

theorem not_mentions_term (hn : OutsideFunctions names) (id : InstrId) : (ty : Ty) → (t : Term) →
    (v : Value) → resolveTerm names ty t = .ok v → Value.mentions (.instr id) v = false
  | _, .local s, v, h => absurd h (by simpa only [resolveTerm] using hn.locals s v)
  | _, .global s, v, h => hn.globals s v (by simpa only [resolveTerm] using h) id
  | _, .int _, v, h => by
    simp only [resolveTerm, except_bind_ok] at h
    obtain ⟨y, -, h⟩ := h
    cases h
    rfl
  | _, .bool _, v, h | _, .float _, v, h | _, .null, v, h | _, .undef, v, h | _, .zero, v, h
  | _, .bytes _, v, h => by
    simp only [resolveTerm] at h
    cases h
    rfl
  | _, .array ts, v, h | _, .struct ts, v, h => by
    simp only [resolveTerm, except_bind_ok] at h
    obtain ⟨vs, hvs, h⟩ := h
    cases h
    simp only [Value.mentions, not_mentions_all hn id ts vs hvs, Bool.or_false]
    rfl
  | _, .cast _ t _, v, h => by
    simp only [resolveTerm, except_bind_ok] at h
    obtain ⟨w, hw, h⟩ := h
    cases h
    simp only [Value.mentions, not_mentions_typed hn id t w hw, Bool.or_false]
    rfl
  | _, .gep _ _ t ts, v, h => by
    simp only [resolveTerm, except_bind_ok] at h
    obtain ⟨ws, hws, w, hw, h⟩ := h
    cases h
    simp only [Value.mentions, not_mentions_typed hn id t w hw, not_mentions_all hn id ts ws hws,
      Bool.or_false]
    rfl

theorem not_mentions_typed (hn : OutsideFunctions names) (id : InstrId) : (t : TypedTerm) →
    (v : Value) → resolveTyped names t = .ok v → Value.mentions (.instr id) v = false
  | .mk ty t, v, h => not_mentions_term hn id ty t v (by simpa only [resolveTyped] using h)

theorem not_mentions_all (hn : OutsideFunctions names) (id : InstrId) : (ts : List TypedTerm) →
    (vs : List Value) → resolveAll names ts = .ok vs → Value.mentionsAny (.instr id) vs = false
  | [], vs, h => by
    simp only [resolveAll] at h
    cases h
    rfl
  | t :: ts, vs, h => by
    simp only [resolveAll, except_bind_ok] at h
    obtain ⟨w, hw, ws, hws, h⟩ := h
    cases h
    simp only [Value.mentionsAny, not_mentions_typed hn id t w hw, not_mentions_all hn id ts ws hws,
      Bool.or_false]

end

end

/-! ## 4. Lists side by side -/

section

variable {α β : Type} {R S : α → β → Prop} {as : List α} {bs : List β}

theorem forall₂_and (h : List.Forall₂ R as bs) (h' : List.Forall₂ S as bs) :
    List.Forall₂ (fun a b => R a b ∧ S a b) as bs := by
  induction h with
  | nil => exact .nil
  | cons hab _ ih =>
    cases h' with
    | cons hab' h' => exact .cons ⟨hab, hab'⟩ (ih h')

theorem map_eq_of_forall₂ {γ : Type} {f : α → γ} {g : β → γ} (h : List.Forall₂ R as bs)
    (hfg : ∀ a b, R a b → g b = f a) : bs.map g = as.map f := by
  induction h with
  | nil => rfl
  | cons hab _ ih => rw [List.map_cons, List.map_cons, hfg _ _ hab, ih]

theorem forall₂_mem_right (h : List.Forall₂ R as bs) {b : β} (hb : b ∈ bs) :
    ∃ a ∈ as, R a b := by
  induction h with
  | nil => cases hb
  | cons hab _ ih =>
    rcases List.mem_cons.mp hb with rfl | hb
    · exact ⟨_, List.mem_cons_self, hab⟩
    · obtain ⟨a, ha, hr⟩ := ih hb
      exact ⟨a, List.mem_cons_of_mem _ ha, hr⟩

end

/-! ## 5. Types of a program that was read -/

theorem mem_globalSymbols {names : List String} (h : x ∈ globalSymbols names) :
    ∃ g : GlobalId, g.index < names.length ∧ x.2 = .global g := by
  obtain ⟨⟨name, k⟩, hk, rfl⟩ := List.mem_map.mp h
  exact ⟨⟨k⟩, (List.mem_zipIdx' hk).1, rfl⟩

theorem mem_functionSymbols {names : List String}
    (h : x ∈ functionSymbols names) : ∃ f : FuncId, f.index < names.length ∧ x.2 = .func f := by
  obtain ⟨⟨name, k⟩, hk, rfl⟩ := List.mem_map.mp h
  exact ⟨⟨k⟩, (List.mem_zipIdx' hk).1, rfl⟩

theorem fits_kindAndTy (hbodies : ∀ x ∈ p.namedTypes, ∀ t ∈ x.2, t.Fits)
    {op : Operation} (h : op.IsWritable) : (op.kindAndTy p).2.Fits := by
  obtain ⟨written, h⟩ := h
  cases op with
  | call marker result callee args => exact h.2.1 ▸ Spelling.fits_callResult h.1
  | invoke result callee args normal unwind => exact h.2.1 ▸ Spelling.fits_callResult h.1
  | binary op ty lhs rhs => exact h.1
  | icmp pred ty lhs rhs => exact show 1 < span 32 by decide
  | cast op value target => exact h.2
  | load ty ptr align => exact h.1
  | alloca ty align => exact h.1
  | gep inbounds source base indices => exact fits_gepTy hbodies h.1 _
  | select cond ifTrue ifFalse =>
    obtain ⟨ty, term⟩ := ifTrue
    exact h.2.1.1
  | phi ty incoming => exact h.1
  | _ => exact True.intro

theorem fills_ty {types : Program} {scope : Scope} {x : BlockId × InstrTree}
    {i : Instr} (h : Fills types names scope x i) : i.ty = (x.2.operation.kindAndTy types).2 := by
  obtain ⟨out, -, rfl⟩ := h
  unfold fillNode
  split <;> rfl

theorem isInitialized_cases {types : Program} {symbols : List (String × Value)} {t : GlobalTree}
    {g : Global} (h : IsInitialized types symbols t g) :
    g = { globalNode t with initializer := g.initializer } ∧
      ∀ v ∈ g.initializer, ∃ term ∈ t.initializer,
        resolveTerm ⟨types, symbols, none⟩ t.ty term = .ok v := by
  unfold IsInitialized at h
  split at h
  · subst h
    exact ⟨rfl, by simp [globalNode]⟩
  · rename_i term hterm
    obtain ⟨v, hv, rfl⟩ := h
    exact ⟨rfl, fun w hw => ⟨term, hterm, Option.some.inj hw ▸ hv⟩⟩

section

variable {tree : ProgramTree} {p : Program} {fs : List Func} {gs : List Global}

theorem fits_types (h : tree.IsWritable) : ∀ x ∈ tree.types.namedTypes, ∀ t ∈ x.2, t.Fits := by
  unfold ProgramTree.types
  exact (addNamedTypes_keeps h.types _ (by simp) (by simp)).2

theorem nodup_types (tree : ProgramTree) : (tree.types.namedTypes.map Prod.fst).Nodup := by
  unfold ProgramTree.types
  exact (addNamedTypes_keeps (P := fun _ => True) (by simp) _ (by simp) (by simp)).1

/-- What is known of a program that was read: what its tree declares, and all of its bodies. -/
structure IsRead (tree : ProgramTree) (fs : List Func) (gs : List Global) (p : Program) : Prop where
  writable : tree.IsWritable
  declares : tree.Declares fs gs
  entered : EnteredBelow tree fs gs tree.functions.length p

namespace IsRead

variable (h : IsRead tree fs gs p)

include h

theorem namedTypes : p.namedTypes = tree.types.namedTypes :=
  (congrArg Program.namedTypes h.entered.rest).trans rfl

theorem globals : p.globals = gs.toArray :=
  congrArg Program.globals h.entered.rest

theorem functions_size : p.functions.size = tree.functions.length :=
  h.entered.size.trans h.declares.functions.length_eq.symm

theorem globals_size : p.globals.size = tree.globals.length := by
  rw [h.globals, h.declares.globals.length_eq]
  simp

theorem func (hf : f.index < p.functions.size) : ∃ t shared,
    tree.functions[f.index]? = some t ∧
      p.func f = { funcNode t shared with blocks := (p.func f).blocks } := by
  have ht := List.getElem?_eq_getElem (h.functions_size ▸ hf)
  obtain ⟨fn, hfn, shared, -, hnode⟩ := forall₂_get h.declares.functions ht
  exact ⟨_, shared, ht, hnode ▸ h.entered.nodes f.index fn hfn⟩

theorem global (hg : g.index < p.globals.size) : ∃ t,
    tree.globals[g.index]? = some t ∧ IsInitialized tree.types tree.symbols t (p.global g) := by
  have ht := List.getElem?_eq_getElem (h.globals_size ▸ hg)
  obtain ⟨node, hnode, hinit⟩ := forall₂_get h.declares.globals ht
  refine ⟨_, ht, ?_⟩
  have heq : p.global g = node := by
    rw [Program.global, h.globals, Array.getD_eq_getD_getElem?, List.getElem?_toArray, hnode]
    rfl
  rwa [heq]

theorem typeBodies : ∀ x ∈ p.namedTypes, ∀ t ∈ x.2, t.Fits :=
  h.namedTypes ▸ fits_types h.writable

theorem funcWritable (hf : f.index < p.functions.size) : FuncWritable (p.func f) := by
  obtain ⟨t, shared, ht, heq⟩ := h.func hf
  have hw := h.writable.functions t (List.mem_of_getElem? ht)
  rw [heq]
  refine ⟨hw.linkage, hw.ret, ?_, hw.unnamedAddr, nodup_addAttributes _, rfl⟩
  intro param hparam
  obtain ⟨⟨ty, k⟩, hk, rfl⟩ := List.mem_map.mp hparam
  have hty := List.fst_mem_of_mem_zipIdx hk
  obtain ⟨x, hx, rfl⟩ := List.mem_map.mp hty
  exact hw.params x hx

theorem fits_signature (f : FuncId) : (p.func f).signature.ty.Fits := by
  by_cases hf : f.index < p.functions.size
  · have hw := h.funcWritable hf
    refine ⟨hw.ret, Ty.allFit_iff.mpr fun ty hty => ?_⟩
    obtain ⟨param, hparam, rfl⟩ := List.mem_map.mp hty
    exact hw.params param hparam
  · rw [Program.func_of_le (Nat.le_of_not_lt hf)]
    exact ⟨True.intro, True.intro⟩

theorem fits_global (hg : g.index < p.globals.size) : (p.global g).ty.Fits := by
  obtain ⟨t, ht, hi⟩ := h.global hg
  rw [(isInitialized_cases hi).1]
  exact (h.writable.globals t (List.mem_of_getElem? ht)).ty

theorem reaches_globals (hnames : PlainNames p) (hx : x ∈ tree.symbols) :
    (p.valueTy x.2).Fits ∧
      ((∃ f, x.2 = .func f ∧ f.index < p.functions.size ∧ Recovers (p.func f).name) ∨
        ∃ g, x.2 = .global g ∧ g.index < p.globals.size ∧ Recovers (p.global g).name) := by
  rcases List.mem_append.mp hx with hx | hx
  · obtain ⟨g, hg, heq⟩ := mem_globalSymbols hx
    rw [List.length_map, ← h.globals_size] at hg
    rw [heq]
    exact ⟨h.fits_global hg, .inr ⟨g, rfl, hg, hnames.globals _ (global_mem hg)⟩⟩
  · obtain ⟨f, hf, heq⟩ := mem_functionSymbols hx
    rw [List.length_map, ← h.functions_size] at hf
    rw [heq]
    exact ⟨h.fits_signature f, .inl ⟨f, rfl, hf, hnames.functions _ (func_mem hf)⟩⟩

theorem fits_instr (hid : id ∈ p.instrsOf f) :
    (p.instr id).ty.Fits := by
  obtain ⟨b, hb, -⟩ := List.mem_flatMap.mp hid
  obtain ⟨t, shared, ht, -⟩ := h.func (func_of_mem_blocks hb)
  obtain ⟨scope, hbody⟩ := h.entered.bodies f.index (List.getElem?_eq_some_iff.mp ht).1 t ht
  obtain ⟨it, hit, c, hfills⟩ := forall₂_mem_right hbody.instrs (List.mem_map_of_mem hid)
  rw [fills_ty hfills]
  obtain ⟨bt, hbt, hit⟩ := List.mem_flatMap.mp hit
  exact fits_kindAndTy (fits_types h.writable)
    ((h.writable.functions t (List.mem_of_getElem? ht)).blocks bt hbt it hit)

theorem reaches_body (hnames : PlainNames p) (hbounded : Bounded p) {t : FuncTree}
    {scope : Scope} (hbody : BodyOf tree.symbols tree.types p f t scope) :
    (spelling p f).Reaches ⟨tree.types, tree.symbols, some scope⟩ := by
  refine ⟨h.namedTypes.symm, h.typeBodies, fun s v hv => ?_, fun s v hv => ?_⟩
  · have hlookup : scope.values.lookup s.key = some v := by
      simp only [Names.local] at hv
      split at hv
      · rename_i w hw
        cases hv
        exact hw
      · cases hv
    rcases hbody.values _ (mem_of_lookup hlookup) with ⟨i, hi, heq⟩ | ⟨id, hid, heq⟩
    · obtain rfl : v = .arg f i := heq
      have hf : f.index < p.functions.size := by
        by_contra hlt
        rw [Program.func_of_le (Nat.le_of_not_lt hlt)] at hi
        exact absurd hi (Nat.not_lt_zero i)
      refine ⟨?_, .inr ⟨f, i, rfl, hasSymbol h.entered.laid.listedOnce (hbounded.locals f) (.arg hi)⟩⟩
      have hparam := (h.funcWritable hf).params _ (List.getElem_mem hi)
      simpa [spelling, Program.valueTy, hi] using hparam
    · obtain rfl : v = .instr id := heq
      exact ⟨h.fits_instr hid, .inl ⟨id, rfl, fun hty =>
        hasSymbol h.entered.laid.listedOnce (hbounded.locals f) (.instr hid hty)⟩⟩
  · have hlookup : tree.symbols.lookup s.key = some v := by
      simp only [Names.global] at hv
      split at hv
      · rename_i w hw
        cases hv
        exact hw
      · cases hv
    exact h.reaches_globals hnames (mem_of_lookup hlookup)

theorem renders (hnames : PlainNames p) (hbounded : Bounded p) (htyped : IsTyped (tree.functions.map FuncTree.writtenTys) p)
    (hkeeps : ∀ i ∈ p.instrs.toList, KeepsType p i)
    (hid : id ∈ p.instrsOf f) : ∃ op, (spelling p f).Renders (p.instr id) op := by
  have hlt := h.entered.laid.instrsOf_lt hid
  obtain ⟨b, hb, -⟩ := List.mem_flatMap.mp hid
  obtain ⟨t, shared, ht, -⟩ := h.func (func_of_mem_blocks hb)
  obtain ⟨scope, hbody⟩ := h.entered.bodies f.index (List.getElem?_eq_some_iff.mp ht).1 t ht
  have hwritten := htyped f.index t.writtenTys (by rw [List.getElem?_map, ht]; rfl)
  have hboth := forall₂_and (List.forall₂_map_right_iff.mp hbody.instrs)
    (List.forall₂_map_left_iff.mp hwritten)
  obtain ⟨it, hit, ⟨c, hfills⟩, hty⟩ := forall₂_mem_right hboth hid
  obtain ⟨bt, hbt, hmem⟩ := List.mem_flatMap.mp hit
  obtain ⟨written, hreads⟩ := (h.writable.functions t (List.mem_of_getElem? ht)).blocks bt hbt it hmem
  have hblocks : ∀ s c, scope.block s = .ok c → (spelling p f).HasSymbol (.block c) := by
    intro s c hc
    have hlookup : scope.blocks.lookup s.key = some c := by
      simp only [Scope.block] at hc
      split at hc
      · rename_i w hw
        cases hc
        exact hw
      · cases hc
    exact hasSymbol h.entered.laid.listedOnce (hbounded.locals f) (.block (hbody.blocks _ (mem_of_lookup hlookup)))
  exact Spelling.renders_of_fills (h.reaches_body hnames hbounded hbody) hblocks h.fits_signature
    hfills hreads hty (hkeeps _ (instr_mem hlt)) fun v hv => ⟨hty.void v hv, hbounded.operands _ (instr_mem hlt) v hv⟩

theorem prints_initial (hnames : PlainNames p) (hbounded : Bounded p)
    (hg : g.index < p.globals.size) {v : Value} (hv : v ∈ (p.global g).initializer) :
    (globalSpelling p).Prints (p.global g).ty v := by
  obtain ⟨t, ht, hi⟩ := h.global hg
  obtain ⟨hnode, hinit⟩ := isInitialized_cases hi
  obtain ⟨term, hterm, hresolve⟩ := hinit v hv
  have hreads := h.writable.globals t (List.mem_of_getElem? ht)
  have hglobals : ∀ s w, (⟨tree.types, tree.symbols, none⟩ : Names).global s = .ok w →
      tree.symbols.lookup s.key = some w := by
    intro s w hw
    simp only [Names.global] at hw
    split at hw
    · rename_i w' hw'
      cases hw
      exact hw'
    · cases hw
  have hreaches : (globalSpelling p).Reaches ⟨tree.types, tree.symbols, none⟩ :=
    { types := h.namedTypes.symm
      bodies := h.typeBodies
      locals := fun s w hw => by cases hw
      globals := fun s w hw => h.reaches_globals hnames (mem_of_lookup (hglobals s w hw)) }
  have houtside : OutsideFunctions ⟨tree.types, tree.symbols, none⟩ :=
    { locals := fun s w hw => by cases hw
      globals := fun s w hw id => by
        obtain ⟨-, ⟨f, rfl, -⟩ | ⟨g, rfl, -⟩⟩ :=
          h.reaches_globals hnames (mem_of_lookup (hglobals s w hw)) <;> rfl }
  have hclean : Clean p v :=
    ⟨fun id hid => absurd hid (by simp [not_mentions_term houtside id _ _ _ hresolve]),
      hbounded.initials _ (global_mem hg) v hv⟩
  have hty : (p.global g).ty = t.ty := by rw [hnode]; rfl
  rw [hty]
  exact (Spelling.prints_resolved hreaches t.ty term v hreads.ty (hreads.initializer term hterm)
    hclean hresolve).1

theorem globalWritable (hnames : PlainNames p) (hbounded : Bounded p)
    (hg : g.index < p.globals.size) : GlobalWritable p (p.global g) := by
  obtain ⟨t, ht, hi⟩ := h.global hg
  have hreads := h.writable.globals t (List.mem_of_getElem? ht)
  have hnode := (isInitialized_cases hi).1
  refine ⟨?_, ?_, h.fits_global hg, ?_, fun v => h.prints_initial hnames hbounded hg⟩
  · rw [hnode]
    exact hreads.linkage
  · rw [hnode]
    exact hreads.unnamedAddr
  · rw [hnode]
    exact hreads.align

/-! ## 6. Names of a program that was read -/

theorem globalNames : p.globals.toList.map Global.name = tree.globals.map fun g => g.name.key := by
  rw [h.globals]
  refine map_eq_of_forall₂ h.declares.globals fun t g hi => ?_
  rw [(isInitialized_cases hi).1]
  rfl

theorem functionNames : p.functions.toList.map Func.name = tree.functions.map FuncTree.name := by
  have hfs : fs.map Func.name = tree.functions.map FuncTree.name := by
    refine map_eq_of_forall₂ h.declares.functions fun t f hi => ?_
    obtain ⟨shared, -, rfl⟩ := hi
    rfl
  rw [← hfs]
  apply List.ext_getElem
  · simp [h.entered.size]
  · intro k h₁ h₂
    rw [List.length_map] at h₁ h₂
    have hnode := h.entered.nodes k fs[k] (List.getElem?_eq_getElem h₂)
    have hfunc : p.func ⟨k⟩ = p.functions[k] := by
      rw [Array.length_toList] at h₁
      simp [Program.func, h₁]
    rw [List.getElem_map, List.getElem_map, Array.getElem_toList, ← hfunc, hnode]

theorem name : p.name = p.sourceFile.getD "module" := by
  have htypes := addNamedTypes_nodes tree.namedTypes
    { name := tree.sourceFile.getD "module"
      sourceFile := tree.sourceFile
      dataLayout := tree.dataLayout
      targetTriple := tree.targetTriple }
  have hname : p.name = tree.types.name := (congrArg Program.name h.entered.rest).trans rfl
  have hfile : p.sourceFile = tree.types.sourceFile :=
    (congrArg Program.sourceFile h.entered.rest).trans rfl
  rw [hname, hfile, ProgramTree.types, htypes]

end IsRead

/-- **A verified and well typed program that was read can be written.** -/
theorem writable_of_read {source : String} (hread : readTree source = .ok tree)
    (hresolve : tree.resolve = .ok p) (hp : Portable tree p)
    (hkeeps : ∀ i ∈ p.instrs.toList, KeepsType p i) : Writable p := by
  obtain ⟨fs, gs, hdeclares, hentered⟩ := resolved hresolve
  have h : IsRead tree fs gs p := ⟨isWritable_readTree hread, hdeclares, hentered⟩
  refine
    { laid := hentered.laid
      name := h.name
      typeNames := h.namedTypes ▸ nodup_types tree
      typeBodies := h.typeBodies
      globalNames := h.globalNames ▸ hdeclares.globalNames
      functionNames := h.functionNames ▸ hdeclares.functionNames
      apart := fun f hf => ?_
      functions := fun f hf => h.funcWritable hf
      globals := fun g hg => h.globalWritable hp.names hp.bounded hg
      instrs := fun f id hid => h.renders hp.names hp.bounded hp.typed hkeeps hid
      filled := fun f b hb => ?_
      names := hp.names
      texts := hp.texts
      bounded := hp.bounded }
  · have hname : f.name ∈ tree.functions.map FuncTree.name :=
      h.functionNames ▸ List.mem_map_of_mem hf
    obtain ⟨t, ht, heq⟩ := List.mem_map.mp hname
    rw [h.globalNames, ← heq]
    exact hdeclares.apart t ht
  · have hlive := (h.funcWritable (func_of_mem_blocks hb)).live
    obtain ⟨last, hlast, -⟩ := (Program.verify_ok.mp hp.verified f hlive b hb).ends
    intro hnil
    rw [Block.terminator?, hnil] at hlast
    cases hlast

end

/-! ## 7. The text under other local names -/

section

variable {p : Program} {f : FuncId}

namespace Printer

theorem operation_name (pr : Printer) (i : Instr) (n : Option String) :
    pr.operation { i with name := n } = pr.operation i := rfl

variable {sp : Spelling} {pr pr₂ : Printer} (hsh : sp.Shows pr) (hsh₂ : sp.Shows pr₂)
include hsh hsh₂

theorem instr_value_eq (h : sp.HasSymbol (.instr id)) :
    pr.value (.instr id) = pr₂.value (.instr id) :=
  Spelling.value_eq hsh hsh₂ .void (.instr id) (by simpa only [Spelling.Prints] using h)

theorem arg_value_eq {g : FuncId} {i : Nat} (h : sp.HasSymbol (.arg g i)) :
    pr.value (.arg g i) = pr₂.value (.arg g i) :=
  Spelling.value_eq hsh hsh₂ .void (.arg g i) (by simpa only [Spelling.Prints] using h)

end Printer

theorem shows_global (p : Program) : (globalSpelling p).Shows ⟨p, {}⟩ :=
  { ty := fun _ => rfl
    func := fun _ => rfl
    signature := fun _ => rfl
    global := fun _ => rfl
    instr := fun _ => rfl
    arg := fun _ _ => rfl
    block := fun _ => rfl }

theorem shows_global_relabelled (p : Program) : (globalSpelling p).Shows ⟨relabelled p, {}⟩ :=
  { ty := p.valueTy_relabel _
    func := fun g => by rw [relabelled, Program.func_relabel]; rfl
    signature := p.func_relabel_signature _
    global := fun _ => rfl
    instr := fun _ => rfl
    arg := fun _ _ => rfl
    block := fun _ => rfl }

namespace Printable

variable (h : Printable p)
include h

theorem hasSymbol {v : Value} (hv : IsLocal p f v) : (spelling p f).HasSymbol v :=
  Assembly.hasSymbol h.laid.listedOnce (h.bounded.locals f) hv

theorem instr_relabelled (hdef : (p.func f).isDeclaration = false)
    (hid : id ∈ p.instrsOf f) : Printer.instr ⟨relabelled p, slotsOf (relabelled p) f⟩ id =
      Printer.instr ⟨p, slotsOf p f⟩ id := by
  have hsh := shows_slotsOf p f
  have hsh₂ := shows_relabelled h.laid hdef
  obtain ⟨op, hop⟩ := h.instrs f id hid
  obtain ⟨n, hn⟩ := p.instr_relabel_name (nameBack p) id
  have hinstr : (relabelled p).instr id = { p.instr id with name := n } := hn
  simp only [Printer.instr, hinstr, Printer.operation_name, Spelling.operation_eq hsh₂ hsh hop]
  congr 1
  split
  · rfl
  · rename_i hvoid
    have hty : (p.instr id).ty ≠ .void := isVoid_eq_false.mp (Bool.not_eq_true _ ▸ hvoid)
    rw [Printer.instr_value_eq hsh₂ hsh (h.hasSymbol (.instr hid hty))]

theorem header_relabelled (f : FuncId) (group : Option Nat) :
    Printer.header ⟨relabelled p, slotsOf (relabelled p) f⟩ f group =
      Printer.header ⟨p, slotsOf p f⟩ f group := by
  have hfunc := p.func_relabel (nameBack p) f
  have hdecl : ((relabelled p).func f).isDeclaration = (p.func f).isDeclaration := by
    rw [relabelled, hfunc]
    rfl
  have hparams : Printer.params ⟨relabelled p, slotsOf (relabelled p) f⟩ f ((relabelled p).func f) =
      Printer.params ⟨p, slotsOf p f⟩ f (p.func f) := by
    have hvararg : ((relabelled p).func f).varArg = (p.func f).varArg := by
      rw [relabelled, hfunc]
    simp only [Printer.params, hdecl, hvararg]
    congr 1
    apply List.ext_getElem
    · simp [relabelled, hfunc]
    · intro i h₁ h₂
      have hi : i < (p.func f).params.length := by simpa using h₂
      have hi' : i < ((relabelled p).func f).params.length := by simpa using h₁
      have hty : ((relabelled p).func f).params[i].ty = (p.func f).params[i].ty := by
        simp [relabelled, hfunc]
      simp only [List.getElem_map, List.getElem_zipIdx, Nat.zero_add, hty]
      split
      · rfl
      · rename_i hdef
        rw [Printer.arg_value_eq (shows_relabelled h.laid (Bool.not_eq_true _ ▸ hdef))
          (shows_slotsOf p f) (h.hasSymbol (.arg hi))]
  have hhead : (relabelled p).func f = { p.func f with params := ((relabelled p).func f).params } := by
    rw [relabelled, hfunc]
  simp only [Printer.header, hparams, hdecl]
  rw [hhead]

theorem blockLines_relabelled (hdef : (p.func f).isDeclaration = false) {b : BlockId}
    (hb : b ∈ (p.func f).blocks) (isFirst : Bool) :
    Printer.blockLines ⟨relabelled p, slotsOf (relabelled p) f⟩ isFirst b =
      Printer.blockLines ⟨p, slotsOf p f⟩ isFirst b := by
  have hmem : (.block b, (p.block b).name) ∈ definitions p f :=
    List.mem_append_right _ (List.mem_flatMap.mpr ⟨b, hb, List.mem_cons_self⟩)
  have hname : ((relabelled p).block b).name.isNone = (p.block b).name.isNone := by
    rw [relabelled, Program.block_relabel p _ (h.laid.block_lt hb)]
    change (nameBack p (.block b)).isNone = _
    rw [nameBack_of_local h.laid hdef (.block hb)]
    exact slotName_isNone h.laid.listedOnce hmem
  have hslot : (slotsOf (relabelled p) f).blocks.lookup b = (slotsOf p f).blocks.lookup b :=
    ((shows_relabelled h.laid hdef).block b).trans ((shows_slotsOf p f).block b).symm
  have hinstrs : ((relabelled p).block b).instrs = (p.block b).instrs :=
    p.block_relabel_instrs _ b
  simp only [Printer.blockLines, hname, hslot, hinstrs]
  congr 1
  refine List.map_congr_left fun id hid => ?_
  rw [h.instr_relabelled hdef (List.mem_flatMap.mpr ⟨b, hb, hid⟩)]

theorem functionLines_relabelled (f : FuncId) (group : Option Nat) :
    Printer.functionLines (relabelled p) f group = Printer.functionLines p f group := by
  have hblocks : ((relabelled p).func f).blocks = (p.func f).blocks := p.func_relabel_blocks _ f
  have hdecl : ((relabelled p).func f).isDeclaration = (p.func f).isDeclaration := by
    rw [Func.isDeclaration, Func.isDeclaration, hblocks]
  simp only [Printer.functionLines, h.header_relabelled, hdecl, hblocks]
  split
  · rfl
  · rename_i hdef
    congr 2
    refine List.flatMap_congr fun x hx => ?_
    exact h.blockLines_relabelled (Bool.not_eq_true _ ▸ hdef) (List.fst_mem_of_mem_zipIdx hx) _

theorem functionsLines_relabelled (ids : List FuncId) (groups : List (List Attribute)) :
    functionsLines (relabelled p) ids groups = functionsLines p ids groups := by
  induction ids generalizing groups with
  | nil => rfl
  | cons id ids ih =>
    have hattributes : ((relabelled p).func id).attributes = (p.func id).attributes := by
      rw [relabelled, Program.func_relabel]
    simp only [functionsLines, hattributes, ih, h.functionLines_relabelled]

theorem global_relabelled (hg : g.index < p.globals.size) :
    Printer.global ⟨relabelled p, {}⟩ (p.global g) = Printer.global ⟨p, {}⟩ (p.global g) := by
  have hinit : (p.global g).initializer.map (Printer.value ⟨relabelled p, {}⟩) =
      (p.global g).initializer.map (Printer.value ⟨p, {}⟩) := by
    refine Option.map_congr fun v hv => ?_
    exact Spelling.value_eq (shows_global_relabelled p) (shows_global p) _ v
      ((h.globals g hg).initializer v hv)
  have hmap : (p.global g).initializer.map (fun v => " " ++ Printer.value ⟨relabelled p, {}⟩ v) =
      (p.global g).initializer.map fun v => " " ++ Printer.value ⟨p, {}⟩ v := by
    have := congrArg (Option.map (" " ++ ·)) hinit
    simpa only [Option.map_map, Function.comp_def] using this
  simp only [Printer.global, hmap]

/-- **A program has the same text under the names of its slots.** -/
theorem print_relabelled : print (relabelled p) = print p := by
  have hlive : (relabelled p).liveFunctions = p.liveFunctions := p.liveFunctions_relabel _
  have hglobals : (relabelled p).globalIds.map (fun id =>
      Printer.global ⟨relabelled p, {}⟩ ((relabelled p).global id)) =
        p.globalIds.map fun id => Printer.global ⟨p, {}⟩ (p.global id) := by
    refine List.map_congr_left fun g hg => ?_
    obtain ⟨k, hk, rfl⟩ := List.mem_map.mp hg
    exact h.global_relabelled (List.mem_range.mp hk)
  have hheader : headerLines (relabelled p) = headerLines p := rfl
  have htypes : typeLines (relabelled p) = typeLines p := rfl
  simp only [print, hlive, h.functionsLines_relabelled, hglobals, hheader, htypes]

end Printable

end

end QirProfile.Assembly
