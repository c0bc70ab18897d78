import QirProfile.Proofs.Program.Linked

/-!
# A value gives way to another one

`exchangeUses` walks over every operand and every initial value, puts one value in the place of
another and counts where it did so. What it should leave behind is said without these walks:
`Occurs` is membership at any depth, and `Exchanged` holds of two values if the second one is the
first one with every occurrence turned, one case for each way to nest.
-/

namespace QirProfile

/-! ## 1. Occurrences at any depth -/

namespace Value

/-- The values that stand directly inside a value. -/
def parts : Value → List Value
  | array _ vs | struct _ vs => vs
  | cast _ v _ => [v]
  | gep _ _ base vs _ => base :: vs
  | _ => []

/-- `needle` is the value, or it stands inside it at some depth. -/
inductive Occurs (needle : Value) : Value → Prop
  | here : Occurs needle needle
  | inside {v w : Value} : w ∈ v.parts → Occurs needle w → Occurs needle v

theorem mentions_iff_parts {needle v : Value} :
    mentions needle v = true ↔ v = needle ∨ ∃ w ∈ v.parts, mentions needle w = true := by
  cases v <;> simp [mentions, parts, mentionsAny_eq, or_assoc]

theorem Occurs.mentions {needle v : Value} (h : needle.Occurs v) : mentions needle v = true := by
  induction h with
  | here => exact mentions_self needle
  | inside hw _ ih => exact mentions_iff_parts.mpr (.inr ⟨_, hw, ih⟩)

mutual

theorem occurs_of_mentions {needle : Value} :
    (v : Value) → mentions needle v = true → needle.Occurs v
  | instr _ | arg _ _ | block _ | func _ | global _ | int _ _ | float _ _ | null _ | undef _
  | zero _ | bytes _ => by
    intro h
    simp only [mentions, beq_iff_eq] at h
    exact h ▸ .here
  | array _ vs | struct _ vs => by
    intro h
    simp only [mentions, Bool.or_eq_true, beq_iff_eq] at h
    rcases h with h | h
    · exact h ▸ .here
    · obtain ⟨w, hw, hoccurs⟩ := occurs_of_mentionsAny vs h
      exact .inside hw hoccurs
  | cast _ v _ => by
    intro h
    simp only [mentions, Bool.or_eq_true, beq_iff_eq] at h
    rcases h with h | h
    · exact h ▸ .here
    · exact .inside List.mem_cons_self (occurs_of_mentions v h)
  | gep _ _ base vs _ => by
    intro h
    simp only [mentions, Bool.or_eq_true, beq_iff_eq] at h
    rcases h with (h | h) | h
    · exact h ▸ .here
    · exact .inside List.mem_cons_self (occurs_of_mentions base h)
    · obtain ⟨w, hw, hoccurs⟩ := occurs_of_mentionsAny vs h
      exact .inside (List.mem_cons_of_mem _ hw) hoccurs

theorem occurs_of_mentionsAny {needle : Value} :
    (vs : List Value) → mentionsAny needle vs = true → ∃ w ∈ vs, needle.Occurs w
  | [] => by
    intro h
    cases h
  | v :: vs => by
    intro h
    simp only [mentionsAny, Bool.or_eq_true] at h
    rcases h with h | h
    · exact ⟨v, List.mem_cons_self, occurs_of_mentions v h⟩
    · obtain ⟨w, hw, hoccurs⟩ := occurs_of_mentionsAny vs h
      exact ⟨w, List.mem_cons_of_mem _ hw, hoccurs⟩

end

theorem mentions_iff_occurs {needle v : Value} : mentions needle v = true ↔ needle.Occurs v :=
  ⟨occurs_of_mentions v, Occurs.mentions⟩

instance (needle v : Value) : Decidable (needle.Occurs v) :=
  decidable_of_iff _ mentions_iff_occurs

/-! ## 2. Values in which another one has taken a place -/

/-- The second value is the first one with `new` in the place of each `old`. -/
inductive Exchanged (old new : Value) : Value → Value → Prop
  | here : Exchanged old new old new
  | plain {v : Value} : v ≠ old → v.parts = [] → Exchanged old new v v
  | array {ty : Ty} {vs ws : List Value} : array ty vs ≠ old →
      List.Forall₂ (Exchanged old new) vs ws → Exchanged old new (array ty vs) (array ty ws)
  | struct {ty : Ty} {vs ws : List Value} : struct ty vs ≠ old →
      List.Forall₂ (Exchanged old new) vs ws → Exchanged old new (struct ty vs) (struct ty ws)
  | cast {op : CastOp} {v w : Value} {ty : Ty} : cast op v ty ≠ old → Exchanged old new v w →
      Exchanged old new (cast op v ty) (cast op w ty)
  | gep {inbounds : Bool} {source ty : Ty} {base base' : Value} {vs ws : List Value} :
      gep inbounds source base vs ty ≠ old → Exchanged old new base base' →
      List.Forall₂ (Exchanged old new) vs ws →
      Exchanged old new (gep inbounds source base vs ty) (gep inbounds source base' ws ty)

mutual

theorem exchanged_substitute (old new : Value) :
    (v : Value) → Exchanged old new v (substitute old new v)
  | instr _ | arg _ _ | block _ | func _ | global _ | int _ _ | float _ _ | null _ | undef _
  | zero _ | bytes _ => by
    unfold substitute
    split_ifs with h
    · exact h ▸ .here
    · exact .plain h rfl
  | array ty vs => by
    unfold substitute
    split_ifs with h
    · exact h ▸ .here
    · exact .array h (exchanged_substituteAll old new vs)
  | struct ty vs => by
    unfold substitute
    split_ifs with h
    · exact h ▸ .here
    · exact .struct h (exchanged_substituteAll old new vs)
  | cast op v ty => by
    unfold substitute
    split_ifs with h
    · exact h ▸ .here
    · exact .cast h (exchanged_substitute old new v)
  | gep inbounds source base vs ty => by
    unfold substitute
    split_ifs with h
    · exact h ▸ .here
    · exact .gep h (exchanged_substitute old new base) (exchanged_substituteAll old new vs)

theorem exchanged_substituteAll (old new : Value) :
    (vs : List Value) → List.Forall₂ (Exchanged old new) vs (substituteAll old new vs)
  | [] => .nil
  | v :: vs => .cons (exchanged_substitute old new v) (exchanged_substituteAll old new vs)

end

mutual

theorem Exchanged.eq_substitute {old new : Value} :
    {v w : Value} → Exchanged old new v w → w = substitute old new v
  | _, _, .here => by
    unfold substitute
    split <;> rw [if_pos rfl]
  | _, _, .plain hv hparts => by
    refine (substitute_of_not_mentions _ (Bool.eq_false_iff.mpr fun h => ?_)).symm
    rcases mentions_iff_parts.mp h with h | ⟨w, hw, -⟩
    · exact hv h
    · rw [hparts] at hw
      cases hw
  | _, _, .array hv h => by
    rw [substitute, if_neg hv, eq_substituteAll h]
  | _, _, .struct hv h => by
    rw [substitute, if_neg hv, eq_substituteAll h]
  | _, _, .cast hv h => by
    rw [substitute, if_neg hv, h.eq_substitute]
  | _, _, .gep hv hbase h => by
    rw [substitute, if_neg hv, hbase.eq_substitute, eq_substituteAll h]

theorem eq_substituteAll {old new : Value} :
    {vs ws : List Value} → List.Forall₂ (Exchanged old new) vs ws → ws = substituteAll old new vs
  | _, _, .nil => rfl
  | _, _, .cons hv h => by
    rw [substituteAll, ← hv.eq_substitute, ← eq_substituteAll h]

end

theorem exchanged_iff {old new v w : Value} :
    Exchanged old new v w ↔ w = substitute old new v :=
  ⟨Exchanged.eq_substitute, fun h => h ▸ exchanged_substitute old new v⟩

/-! ## 3. The walk that replaces and counts -/

mutual

theorem exchange_eq (old new : Value) :
    (v : Value) → exchange old new v = (substitute old new v, mentions old v)
  | instr _ | arg _ _ | block _ | func _ | global _ | int _ _ | float _ _ | null _ | undef _
  | zero _ | bytes _ => by
    unfold exchange substitute mentions
    split_ifs with h <;> simp [h]
  | array ty vs | struct ty vs => by
    unfold exchange substitute mentions
    rw [exchangeAll_eq old new vs]
    split_ifs with h <;> simp [h]
  | cast op v ty => by
    unfold exchange substitute mentions
    rw [exchange_eq old new v]
    split_ifs with h <;> simp [h]
  | gep inbounds source base vs ty => by
    unfold exchange substitute mentions
    rw [exchange_eq old new base, exchangeAll_eq old new vs]
    split_ifs with h
    · simp [h]
    · simp only [beq_eq_false_iff_ne.mpr h, Bool.false_or, Bool.or_comm]

theorem exchangeAll_eq (old new : Value) :
    (vs : List Value) → exchangeAll old new vs = (substituteAll old new vs, mentionsAny old vs)
  | [] => rfl
  | v :: vs => by
    rw [exchangeAll, exchange_eq old new v, exchangeAll_eq old new vs, substituteAll, mentionsAny]

end

end Value

open Value (Exchanged)

/-- Whether an operand of the instruction has the value at some depth. -/
def Instr.Has (i : Instr) (v : Value) : Prop :=
  ∃ w ∈ i.operands, v.Occurs w

/-- Whether the initial value of the global has the value at some depth. -/
def Global.Has (g : Global) (v : Value) : Prop :=
  ∃ w, g.initializer = some w ∧ v.Occurs w

theorem Instr.uses_iff_has {i : Instr} {v : Value} : i.uses v = true ↔ i.Has v := by
  simp only [uses_iff, Has, Value.mentions_iff_occurs]

theorem Global.uses_iff_has {g : Global} {v : Value} : g.uses v = true ↔ g.Has v := by
  simp only [uses, Has, Option.any_eq_true, Value.mentions_iff_occurs]

instance (i : Instr) (v : Value) : Decidable (i.Has v) :=
  decidable_of_iff _ Instr.uses_iff_has

instance (g : Global) (v : Value) : Decidable (g.Has v) :=
  decidable_of_iff _ Global.uses_iff_has

theorem Instr.exchange_eq (old new : Value) (i : Instr) : i.exchange old new =
    (if !i.erased && i.uses old then
      { i with operands := i.operands.map (Value.substitute old new) } else i,
      !i.erased && i.uses old) := by
  have hmentions : Value.mentionsAny old i.operands = i.uses old := Value.mentionsAny_eq _ _
  unfold exchange
  rw [Value.exchangeAll_eq, Value.substituteAll_eq, hmentions]
  by_cases herased : i.erased = true
  · simp [herased]
  rw [Bool.not_eq_true] at herased
  cases huses : i.uses old with
  | true => simp [herased]
  | false =>
    rw [if_neg (by rw [herased]; exact Bool.false_ne_true), Bool.and_false,
      Program.substitute_of_not_uses huses]
    rfl

theorem Global.exchange_eq (old new : Value) (g : Global) : g.exchange old new =
    (if g.uses old then
      { g with initializer := g.initializer.map (Value.substitute old new) } else g,
      g.uses old) := by
  unfold exchange
  split
  · rename_i hinit
    simp [uses, hinit]
  · rename_i v hinit
    have huses : g.uses old = Value.mentions old v := by rw [uses, hinit, Option.any_some]
    rw [Value.exchange_eq, huses]
    split_ifs with hmentions
    · simp [hinit, hmentions]
    · rw [Bool.not_eq_true] at hmentions
      simp [Value.substitute_of_not_mentions v hmentions, hmentions, ← hinit]

namespace Program

variable {p : Program} {old new : Value}

theorem exchangeUses_eq (p : Program) (old new : Value) :
    p.exchangeUses old new = (p.replaceUses old new, p.useCount old) := by
  unfold exchangeUses replaceUses useCount
  simp only [Array.map_map, Array.countP_map, Function.comp_def, Instr.exchange_eq,
    Global.exchange_eq]

/-! ## 4. Programs in which a value has given way -/

/-- The program `q` is `p` with `new` in the place of `old`, and `n` users had it. -/
structure Exchanges (p : Program) (old new : Value) (q : Program) (n : Nat) : Prop where
  /-- No live instruction has the old value left, whether it stands in a block or not. -/
  instrFree : ∀ i, (q.instr i).erased = false → ¬ (q.instr i).Has old
  globalFree : ∀ g, ¬ (q.global g).Has old
  users : q.usersOf old = []
  unused : q.hasUses old = false
  count : n =
    p.instrIds.countP (fun i => (p.instr i).erased = false ∧ (p.instr i).Has old) +
      p.globalIds.countP fun g => (p.global g).Has old
  operands : ∀ i, (p.instr i).erased = false →
    List.Forall₂ (Exchanged old new) (p.instr i).operands (q.instr i).operands
  initializers : ∀ g,
    Option.Rel (Exchanged old new) (p.global g).initializer (q.global g).initializer
  /-- What is erased keeps its operands, and nothing but operands and initial values changes. -/
  erased : ∀ i, (p.instr i).erased = true → q.instr i = p.instr i
  instrs : ∀ i, q.instr i = { p.instr i with operands := (q.instr i).operands }
  globals : ∀ g, q.global g = { p.global g with initializer := (q.global g).initializer }
  sizes : q.instrs.size = p.instrs.size ∧ q.globals.size = p.globals.size
  rest : q = { p with instrs := q.instrs, globals := q.globals }

theorem toList_instrs (p : Program) : p.instrs.toList = p.instrIds.map p.instr :=
  List.ext_getElem (by simp [instrIds]) (by simp +contextual [instrIds, instr])

theorem useCount_eq (p : Program) (v : Value) : p.useCount v =
    p.instrIds.countP (fun i => (p.instr i).erased = false ∧ (p.instr i).Has v) +
      p.globalIds.countP fun g => (p.global g).Has v := by
  rw [useCount, ← Array.countP_toList, ← Array.countP_toList, toList_instrs, toList_globals,
    List.countP_map, List.countP_map]
  congr 1
  · refine List.countP_congr fun i _ => ?_
    simp [Instr.uses_iff_has]
  · refine List.countP_congr fun g _ => ?_
    simp [Global.uses_iff_has]

theorem operands_exchanged {i : InstrId} (hlive : (p.instr i).erased = false) :
    ((p.replaceUses old new).instr i).operands =
      (p.instr i).operands.map (Value.substitute old new) := by
  rw [instr_replaceUses, hlive]
  cases huses : (p.instr i).uses old with
  | true => rfl
  | false => exact (substitute_of_not_uses huses new).symm

theorem initializer_exchanged (g : GlobalId) : ((p.replaceUses old new).global g).initializer =
    (p.global g).initializer.map (Value.substitute old new) := by
  rw [global_replaceUses]
  split
  · rfl
  · rename_i huses
    cases hinit : (p.global g).initializer with
    | none => rfl
    | some v =>
      have hmentions : Value.mentions old v = false := by
        simpa [Global.uses, hinit] using huses
      rw [Option.map_some, Value.substitute_of_not_mentions v hmentions]

/-- Every occurrence at any depth is turned, and the answer is the number of operands and globals
    that had one; all else stays. -/
theorem exchangeUses_exchanges (hold : old.isConstant = false) (hnew : ¬ old.Occurs new) :
    p.Exchanges old new (p.exchangeUses old new).1 (p.exchangeUses old new).2 := by
  rw [exchangeUses_eq]
  rw [← Value.mentions_iff_occurs, Bool.not_eq_true] at hnew
  have hlive : ∀ i, ((p.replaceUses old new).instr i).erased = (p.instr i).erased := by
    intro i
    rw [instr_replaceUses]
    split <;> rfl
  have hinstr : ∀ i, ((p.replaceUses old new).instr i).erased = false →
      ((p.replaceUses old new).instr i).uses old = false :=
    fun i h => not_uses_replaceUses hold hnew ((hlive i).symm.trans h)
  have hglobal : ∀ g, ((p.replaceUses old new).global g).uses old = false :=
    not_global_uses_replaceUses hold hnew
  have hunused : (p.replaceUses old new).hasUses old = false := by
    refine Bool.eq_false_iff.mpr fun h => ?_
    rcases hasUses_iff.mp h with ⟨i, hi, -, huses⟩ | ⟨g, huses⟩
    · rw [hinstr i hi] at huses
      cases huses
    · rw [hglobal g] at huses
      cases huses
  refine
    { instrFree := fun i hi hhas => ?_
      globalFree := fun g hhas => ?_
      users := ?_
      unused := hunused
      count := useCount_eq p old
      operands := fun i hi => ?_
      initializers := fun g => ?_
      erased := fun i hi => ?_
      instrs := fun i => ?_
      globals := fun g => ?_
      sizes := by simp [replaceUses]
      rest := rfl }
  · rw [← Instr.uses_iff_has, hinstr i hi] at hhas
    cases hhas
  · rw [← Global.uses_iff_has, hglobal g] at hhas
    cases hhas
  · refine List.eq_nil_iff_forall_not_mem.mpr fun u hu => ?_
    cases u with
    | instr i =>
      obtain ⟨hi, -, huses⟩ := mem_usersOf_instr.mp hu
      rw [hinstr i hi] at huses
      cases huses
    | global g =>
      rw [mem_usersOf_global, hglobal g] at hu
      cases hu
  · rw [operands_exchanged hi, List.forall₂_map_right_iff, List.forall₂_same]
    exact fun v _ => Value.exchanged_substitute old new v
  · rw [initializer_exchanged]
    cases (p.global g).initializer with
    | none => exact .none
    | some v => exact .some (Value.exchanged_substitute old new v)
  · rw [instr_replaceUses, hi]
    rfl
  · rw [instr_replaceUses]
    split <;> rfl
  · rw [global_replaceUses]
    split <;> rfl

/-- A function that gives a structure with its own address back, with an instruction that stands in
    no block, one that is erased, and a global. The address stands below an array and a conversion,
    and twice in one operand. -/
def addressed : Program where
  name := "addressed"
  functions := #[
    ⟨"f", .struct [.ptr (.int 8)], [], false, none, none, [], [⟨0⟩], false⟩,
    ⟨"g", .void, [], false, none, none, [], [], false⟩]
  blocks := #[⟨some "entry", some ⟨0⟩, [⟨0⟩], false⟩]
  instrs := #[
    ⟨.ret, .void, [.struct (.struct [.ptr (.int 8)])
      [.cast .bitcast (.func ⟨0⟩) (.ptr (.int 8))]], none, some ⟨0⟩, false⟩,
    ⟨.cast .bitcast, .ptr (.int 8), [.gep true (.int 8) (.cast .bitcast (.func ⟨0⟩) (.ptr (.int 8)))
      [.cast .ptrtoint (.func ⟨0⟩) (.int 64)] (.ptr (.int 8))], none, none, false⟩,
    ⟨.cast .bitcast, .ptr (.int 8), [.func ⟨0⟩], none, none, true⟩]
  globals := #[
    { name := "table", ty := .array 1 (.ptr (.int 8)),
      initializer := some (.array (.array 1 (.ptr (.int 8)))
        [.cast .bitcast (.func ⟨0⟩) (.ptr (.int 8))]) },
    { name := "empty", ty := .int 8 }]

theorem exchangeUses_exchanges_addressed :
    ¬ (Value.func ⟨0⟩).Occurs (.func ⟨1⟩) ∧
      (addressed.exchangeUses (.func ⟨0⟩) (.func ⟨1⟩)).2 = 3 ∧
      addressed.Exchanges (.func ⟨0⟩) (.func ⟨1⟩)
        (addressed.exchangeUses (.func ⟨0⟩) (.func ⟨1⟩)).1
        (addressed.exchangeUses (.func ⟨0⟩) (.func ⟨1⟩)).2 :=
  have hnew : ¬ (Value.func ⟨0⟩).Occurs (.func ⟨1⟩) := by decide +kernel
  ⟨hnew, by decide +kernel, exchangeUses_exchanges (by decide) hnew⟩

end Program

end QirProfile
