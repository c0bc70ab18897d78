import QirProfile.Assembly.Print
import QirProfile.Proofs.Assembly.Lexing
import QirProfile.Proofs.Assembly.Spelling
import QirProfile.Proofs.Keys
import QirProfile.Proofs.Program.Copies

/-!
# The symbols of local values

A function's parameters, blocks and results get their slots in the order in which they stand
(`definitions`). `symbols` gives them as symbols: a name that was not given out before, or the next
number.
-/

namespace QirProfile.Assembly

open Text

variable {ds : List (Value × Option String)}

/-! ## 1. Names with a suffix -/

/-- The `n`th candidate for a name. -/
def candidate (name : String) (n : Nat) : String := name ++ "." ++ toString n

theorem candidate_not_numeral (name : String) (n : Nat) : isNumeral (candidate name n) = false := by
  simp only [isNumeral, Bool.and_eq_false_iff, candidate, String.toList_append]
  right
  rw [List.all_eq_false]
  exact ⟨'.', by simp, by decide⟩

theorem suffixed_eq (name : String) (fuel n : Nat) (used : List String) :
    suffixed name fuel n used = Program.freshName name fuel n used := by
  induction fuel generalizing n used with
  | zero => rfl
  | succ fuel ih => simp only [suffixed, Program.freshName, ih]

theorem suffixed_fresh (name : String) (fuel n : Nat) (used all : List String)
    (hlen : used.length ≤ fuel) (hall : ∀ x ∈ all, x ∈ used ∨ ∃ j < n, x = candidate name j) :
    ∃ j, suffixed name fuel n used = candidate name j ∧ candidate name j ∉ all := by
  rw [suffixed_eq]
  exact Program.freshName_fresh name fuel n used all hlen hall

/-! ## 2. Symbols -/

/-- The symbol that is given out next for a name. -/
def Naming.symbol (naming : Naming) : Option String → Symbol
  | none => .numbered naming.next
  | some name => .named
    (if naming.used.contains name then suffixed name naming.used.length 1 naming.used else name)

/-- The names and numbers given out once this name has its symbol. -/
def Naming.after (naming : Naming) (name : Option String) : Naming :=
  match naming.symbol name with
  | .numbered n => { naming with next := n + 1 }
  | .named fresh => { naming with used := fresh :: naming.used }

theorem Naming.give_eq (naming : Naming) (name : Option String) :
    naming.give name = ((naming.symbol name).text, naming.after name) := by
  cases name <;> rfl

/-- The symbols of values with these names. -/
def Naming.symbols (naming : Naming) :
    List (Value × Option String) → List (Value × Symbol)
  | [] => []
  | (v, name) :: rest => (v, naming.symbol name) :: (naming.after name).symbols rest

/-- What was given out once all of these names have their symbols. -/
def Naming.afterAll (naming : Naming) (ds : List (Value × Option String)) : Naming :=
  ds.foldl (fun naming d => naming.after d.2) naming

theorem Naming.symbols_append (naming : Naming) (ds es : List (Value × Option String)) :
    naming.symbols (ds ++ es) = naming.symbols ds ++ (naming.afterAll ds).symbols es := by
  induction ds generalizing naming with
  | nil => rfl
  | cons d ds ih =>
    obtain ⟨v, name⟩ := d
    simp only [List.cons_append, symbols, ih, afterAll, List.foldl_cons]

theorem Naming.symbols_fst (naming : Naming) (ds : List (Value × Option String)) :
    (naming.symbols ds).map Prod.fst = ds.map Prod.fst := by
  induction ds generalizing naming with
  | nil => rfl
  | cons d ds ih =>
    obtain ⟨v, name⟩ := d
    simp [symbols, ih]

/-- The symbol was not given out so far: a number that is not reached, or a name that is not used. -/
def Naming.Unused (naming : Naming) : Symbol → Prop
  | .numbered n => naming.next ≤ n
  | .named name => name ∉ naming.used

theorem Naming.symbol_unused (naming : Naming) (name : Option String) :
    naming.Unused (naming.symbol name) := by
  cases name with
  | none => exact Nat.le_refl _
  | some name =>
    simp only [symbol, Unused]
    split
    · obtain ⟨j, hj, hfresh⟩ := suffixed_fresh name naming.used.length 1 naming.used naming.used
        (Nat.le_refl _) fun x hx => .inl hx
      rwa [hj]
    · rename_i hused
      exact fun hmem => hused (List.contains_iff_mem.mpr hmem)

theorem Naming.unused_after {naming : Naming} {name : Option String} {s : Symbol}
    (h : (naming.after name).Unused s) : naming.Unused s ∧ naming.symbol name ≠ s := by
  cases name with
  | none =>
    cases s with
    | numbered m =>
      have hle : naming.next + 1 ≤ m := h
      refine ⟨Nat.le_of_succ_le hle, fun heq => ?_⟩
      cases heq
      exact Nat.lt_irrefl _ hle
    | named s => exact ⟨h, nofun⟩
  | some name =>
    cases s with
    | numbered m => exact ⟨h, nofun⟩
    | named s =>
      obtain ⟨hne, hmem⟩ := not_or.mp (mt List.mem_cons.mpr h)
      exact ⟨hmem, fun heq => hne (Symbol.named.inj heq).symm⟩

theorem Naming.symbols_unused :
    ∀ (naming : Naming), ∀ x ∈ naming.symbols ds, naming.Unused x.2 := by
  induction ds with
  | nil => exact fun _ => nofun
  | cons d ds ih =>
    obtain ⟨v, name⟩ := d
    intro naming x hx
    rcases List.mem_cons.mp hx with rfl | hx
    · exact naming.symbol_unused name
    · exact (unused_after (ih _ x hx)).1

theorem Naming.symbols_distinct :
    ∀ (naming : Naming), ((naming.symbols ds).map Prod.snd).Nodup := by
  induction ds with
  | nil => exact fun _ => List.nodup_nil
  | cons d ds ih =>
    obtain ⟨v, name⟩ := d
    intro naming
    simp only [symbols, List.map_cons, List.nodup_cons]
    refine ⟨fun hmem => ?_, ih _⟩
    obtain ⟨x, hx, heq⟩ := List.mem_map.mp hmem
    exact (unused_after (symbols_unused _ x hx)).2 heq.symm

/-! ## 3. Keys -/

/-- A name that is written like a number is the one way in which two symbols share a key. -/
theorem Symbol.key_eq_iff {s t : Symbol} : s.key = t.key ↔ s = t ∨ ∃ n,
    (s = .named (toString n) ∧ t = .numbered n) ∨ (s = .numbered n ∧ t = .named (toString n)) := by
  cases s with
  | named name =>
    cases t with
    | named name' => simp [key]
    | numbered m =>
      constructor
      · rintro rfl
        exact .inr ⟨m, .inl ⟨rfl, rfl⟩⟩
      · rintro (h | ⟨n, ⟨h, h'⟩ | ⟨h, -⟩⟩)
        · cases h
        · rw [h, h']
          rfl
        · cases h
  | numbered m =>
    cases t with
    | named name' =>
      constructor
      · rintro rfl
        exact .inr ⟨m, .inr ⟨rfl, rfl⟩⟩
      · rintro (h | ⟨n, ⟨h, -⟩ | ⟨h, h'⟩⟩)
        · cases h
        · cases h
        · rw [h, h']
          rfl
    | numbered n =>
      constructor
      · intro heq
        have hvalue := congrArg (fun s : String => digitsValue s.toList) heq
        simp only [key, toList_toString, digitsValue_toDigits] at hvalue
        exact .inl (congrArg numbered hvalue)
      · rintro (h | ⟨k, ⟨h, -⟩ | ⟨-, h⟩⟩)
        · rw [h]
        · cases h
        · cases h

theorem Naming.symbols_plain :
    ∀ (naming : Naming), (∀ d ∈ ds, ∀ s ∈ d.2, isNumeral s = false) →
      ∀ x ∈ naming.symbols ds, ∀ s ∈ x.2.name?, isNumeral s = false := by
  induction ds with
  | nil => exact fun _ _ => nofun
  | cons d ds ih =>
    obtain ⟨v, name⟩ := d
    intro naming h x hx
    rcases List.mem_cons.mp hx with rfl | hx
    · cases name with
      | none => exact nofun
      | some name =>
        intro s hs
        simp only [symbol, Symbol.name?, Option.mem_some_iff] at hs
        rw [← hs]
        split
        · obtain ⟨j, hj, -⟩ := suffixed_fresh name naming.used.length 1 naming.used naming.used
            (Nat.le_refl _) fun x hx => .inl hx
          rw [hj]
          exact candidate_not_numeral name j
        · exact h _ List.mem_cons_self name rfl
    · exact ih _ (fun d hd => h d (List.mem_cons_of_mem _ hd)) x hx

/-! ## 4. Numbers -/

/-- How many of the values have no name. -/
def unnamed (ds : List (Value × Option String)) : Nat :=
  (ds.filter fun d => d.2.isNone).length

theorem Naming.symbols_lt :
    ∀ (naming : Naming), ∀ x ∈ naming.symbols ds, ∀ n, x.2 = .numbered n →
      n < naming.next + unnamed ds := by
  induction ds with
  | nil =>
    intro naming x hx
    cases hx
  | cons d ds ih =>
    obtain ⟨v, name⟩ := d
    intro naming x hx n hn
    rcases List.mem_cons.mp hx with rfl | hx
    · cases name with
      | none =>
        cases hn
        simp [unnamed]
      | some name => cases hn
    · have hlt := ih _ x hx n hn
      cases name with
      | none =>
        have hnext : (naming.after none).next = naming.next + 1 := rfl
        simp only [unnamed, List.filter_cons, Option.isNone_none, if_true, List.length_cons] at hlt ⊢
        omega
      | some name =>
        have hnext : (naming.after (some name)).next = naming.next := rfl
        rw [hnext] at hlt
        simpa [unnamed] using hlt

theorem Naming.symbols_isNone (naming : Naming) (ds : List (Value × Option String)) :
    (naming.symbols ds).map (fun x => (x.1, x.2.name?.isNone)) =
      ds.map fun d => (d.1, d.2.isNone) := by
  induction ds generalizing naming with
  | nil => rfl
  | cons d ds ih =>
    obtain ⟨v, name⟩ := d
    rw [symbols, List.map_cons, List.map_cons, ih]
    cases name <;> rfl

theorem Naming.symbol_name? (naming : Naming) (name : Option String) :
    naming.symbol (naming.symbol name).name? = naming.symbol name := by
  cases name with
  | none => rfl
  | some name =>
    have hfresh : (if naming.used.contains name then
        suffixed name naming.used.length 1 naming.used else name) ∉ naming.used :=
      naming.symbol_unused (some name)
    simp only [symbol, Symbol.name?]
    rw [if_neg (c := naming.used.contains (if naming.used.contains name = true then
      suffixed name naming.used.length 1 naming.used else name) = true)
      fun hmem => hfresh (List.contains_iff_mem.mp hmem)]

theorem Naming.symbols_renamed (naming : Naming) (ds : List (Value × Option String)) :
    naming.symbols ((naming.symbols ds).map fun x => (x.1, x.2.name?)) = naming.symbols ds := by
  induction ds generalizing naming with
  | nil => rfl
  | cons d ds ih =>
    obtain ⟨v, name⟩ := d
    have hafter : naming.after (naming.symbol name).name? = naming.after name := by
      simp only [after, symbol_name?]
    simp only [symbols, List.map_cons, symbol_name?, hafter, ih]

/-! ## 5. The local values of a function -/

/-- The parameters with their names. -/
def paramDefinitions (p : Program) (f : FuncId) : List (Value × Option String) :=
  (p.func f).params.zipIdx.map fun x => (.arg f x.2, x.1.name)

/-- A block and the results of its instructions with their names. -/
def blockDefinitions (p : Program) (b : BlockId) : List (Value × Option String) :=
  (.block b, (p.block b).name) ::
    ((p.block b).instrs.filter fun i => !(p.instr i).ty.isVoid).map fun i =>
      (.instr i, (p.instr i).name)

/-- The local values of a function with their names, in the order of their slots. -/
def definitions (p : Program) (f : FuncId) : List (Value × Option String) :=
  paramDefinitions p f ++ (p.func f).blocks.flatMap (blockDefinitions p)

/-- The local values of a function with their symbols. -/
def symbolTable (p : Program) (f : FuncId) : List (Value × Symbol) :=
  Naming.symbols {} (definitions p f)

/-- The slots are the texts of these symbols; the last entry of a value counts. -/
structure Slots.Match (slots : Slots) (table : List (Value × Symbol)) : Prop where
  instr : ∀ id, slots.instrs.lookup id = (table.reverse.lookup (.instr id)).map Symbol.text
  arg : ∀ f i, slots.args.lookup (f, i) = (table.reverse.lookup (.arg f i)).map Symbol.text
  block : ∀ b, slots.blocks.lookup b = (table.reverse.lookup (.block b)).map Symbol.text

/-- A slot more. -/
def Slots.put (slots : Slots) (v : Value) (text : String) : Slots :=
  match v with
  | .instr id => { slots with instrs := (id, text) :: slots.instrs }
  | .arg f i => { slots with args := ((f, i), text) :: slots.args }
  | .block b => { slots with blocks := (b, text) :: slots.blocks }
  | _ => slots

theorem Slots.Match.put {slots : Slots} {table : List (Value × Symbol)} (h : slots.Match table)
    (v : Value) (s : Symbol) : (slots.put v s.text).Match (table ++ [(v, s)]) := by
  have hlook : ∀ w, (table ++ [(v, s)]).reverse.lookup w =
      if w = v then some s else table.reverse.lookup w := by
    intro w
    rw [List.reverse_append]
    simp only [List.reverse_cons, List.reverse_nil, List.nil_append, List.cons_append,
      List.lookup_cons]
    by_cases hw : w = v
    · simp [hw]
    · simp [hw, beq_eq_false_iff_ne.mpr hw]
  constructor
  · intro id
    rw [hlook]
    cases v <;> simp [Slots.put, h.instr, List.lookup_cons]
    rename_i id'
    by_cases hid : id = id'
    · simp [hid]
    · simp [hid, beq_eq_false_iff_ne.mpr hid]
  · intro f i
    rw [hlook]
    cases v <;> simp [Slots.put, h.arg, List.lookup_cons]
    rename_i f' i'
    by_cases hfi : f = f' ∧ i = i'
    · obtain ⟨rfl, rfl⟩ := hfi
      simp
    · have hne : ((f, i) == (f', i')) = false := by
        rw [beq_eq_false_iff_ne]
        simpa using hfi
      simp [hfi, hne]
  · intro b
    rw [hlook]
    cases v <;> simp [Slots.put, h.block, List.lookup_cons]
    rename_i b'
    by_cases hb : b = b'
    · simp [hb]
    · simp [hb, beq_eq_false_iff_ne.mpr hb]

/-- Gives one value its slot. -/
def nameValue (state : Slots × Naming) (d : Value × Option String) : Slots × Naming :=
  (state.1.put d.1 (state.2.symbol d.2).text, state.2.after d.2)

theorem nameParams_eq (f : FuncId) (params : List Param) :
    ∀ (index : Nat) (state : Slots × Naming), nameParams f index params state =
      ((params.zipIdx index).map fun x => (.arg f x.2, x.1.name)).foldl nameValue state := by
  induction params with
  | nil =>
    intro index state
    rfl
  | cons param params ih =>
    intro index state
    obtain ⟨slots, naming⟩ := state
    simp only [nameParams, Naming.give_eq, ih, List.zipIdx_cons, List.map_cons, List.foldl_cons]
    rfl

theorem nameBlock_eq (p : Program) (state : Slots × Naming) (b : BlockId) :
    nameBlock p state b = (blockDefinitions p b).foldl nameValue state := by
  have hinstrs : ∀ (ids : List InstrId) (state : Slots × Naming),
      ids.foldl (nameInstr p) state = ((ids.filter fun i => !(p.instr i).ty.isVoid).map fun i =>
        (.instr i, (p.instr i).name)).foldl nameValue state := by
    intro ids
    induction ids with
    | nil =>
      intro state
      rfl
    | cons id ids ih =>
      intro state
      rw [List.foldl_cons, ih]
      cases hvoid : (p.instr id).ty.isVoid with
      | true => simp [nameInstr, hvoid]
      | false =>
        simp only [nameInstr, hvoid, Bool.false_eq_true, if_false, Naming.give_eq,
          List.filter_cons, Bool.not_false, if_true, List.map_cons, List.foldl_cons]
        rfl
  simp only [nameBlock, Naming.give_eq, hinstrs, blockDefinitions, List.foldl_cons]
  rfl

theorem slotsOf_eq (p : Program) (f : FuncId) :
    slotsOf p f = ((definitions p f).foldl nameValue ({}, {})).1 := by
  have hblocks : ∀ (ids : List BlockId) (state : Slots × Naming),
      ids.foldl (nameBlock p) state = (ids.flatMap (blockDefinitions p)).foldl nameValue state := by
    intro ids
    induction ids with
    | nil =>
      intro state
      rfl
    | cons b ids ih =>
      intro state
      rw [List.foldl_cons, ih, nameBlock_eq, List.flatMap_cons, List.foldl_append]
  rw [slotsOf, nameParams_eq, hblocks, definitions, List.foldl_append]
  rfl

theorem match_foldl :
    ∀ {slots : Slots} (naming : Naming) {table : List (Value × Symbol)}, slots.Match table →
      ((ds.foldl nameValue (slots, naming)).1).Match (table ++ naming.symbols ds) := by
  induction ds with
  | nil =>
    intro slots naming table h
    simpa [Naming.symbols] using h
  | cons d ds ih =>
    intro slots naming table h
    obtain ⟨v, name⟩ := d
    have := ih (naming.after name) (h.put v (naming.symbol name))
    simpa [Naming.symbols, nameValue] using this

/-- The slots of a function are its symbols. -/
theorem match_slotsOf (p : Program) (f : FuncId) : (slotsOf p f).Match (symbolTable p f) := by
  rw [slotsOf_eq]
  have hempty : Slots.Match {} [] := ⟨fun _ => rfl, fun _ _ => rfl, fun _ => rfl⟩
  simpa [symbolTable] using match_foldl {} hempty

end QirProfile.Assembly
