import QirProfile.Program.Uses
import QirProfile.Proofs.Program.Nodes

/-!
# Who mentions whom

A value mentions itself and what stands inside it. Putting a value in the place of another one makes
nothing mention a third: `mentions_substitute`. So a replacement of uses brings no node into an
operand but those of the new value (`uses_replaceUses`).
-/

namespace QirProfile

namespace Value

/-! ## 1. Values -/

theorem mentions_self (v : Value) : mentions v v = true := by
  cases v <;> simp [mentions]

theorem mentionsAny_eq (needle : Value) (vs : List Value) :
    mentionsAny needle vs = vs.any (mentions needle) := by
  induction vs with
  | nil => simp [mentionsAny]
  | cons v vs ih => simp [mentionsAny, ih]

theorem substituteAll_eq (old new : Value) (vs : List Value) :
    substituteAll old new vs = vs.map (substitute old new) := by
  induction vs with
  | nil => rfl
  | cons v vs ih => rw [substituteAll, ih, List.map_cons]

mutual

theorem mentions_substitute {old new needle : Value} (hneedle : needle.isConstant = false) :
    (v : Value) → mentions needle (substitute old new v) = true →
      mentions needle v = true ∨ mentions needle new = true
  | instr _ | arg _ _ | block _ | func _ | global _ | int _ _ | float _ _ | null _ | undef _
  | zero _ | bytes _ => by
    intro h
    unfold substitute at h
    split at h
    · exact .inr h
    · exact .inl h
  | array ty vs => by
    intro h
    unfold substitute at h
    split at h
    · exact .inr h
    · simp only [mentions, Bool.or_eq_true, beq_iff_eq] at h ⊢
      rcases h with rfl | h
      · cases hneedle
      · exact (mentionsAny_substituteAll hneedle vs h).imp_left .inr
  | struct ty vs => by
    intro h
    unfold substitute at h
    split at h
    · exact .inr h
    · simp only [mentions, Bool.or_eq_true, beq_iff_eq] at h ⊢
      rcases h with rfl | h
      · cases hneedle
      · exact (mentionsAny_substituteAll hneedle vs h).imp_left .inr
  | cast op v ty => by
    intro h
    unfold substitute at h
    split at h
    · exact .inr h
    · simp only [mentions, Bool.or_eq_true, beq_iff_eq] at h ⊢
      rcases h with rfl | h
      · cases hneedle
      · exact (mentions_substitute hneedle v h).imp_left .inr
  | gep inbounds source base vs ty => by
    intro h
    unfold substitute at h
    split at h
    · exact .inr h
    · simp only [mentions, Bool.or_eq_true, beq_iff_eq] at h ⊢
      rcases h with (rfl | h) | h
      · cases hneedle
      · exact (mentions_substitute hneedle base h).imp_left fun h => .inl (.inr h)
      · exact (mentionsAny_substituteAll hneedle vs h).imp_left .inr

theorem mentionsAny_substituteAll {old new needle : Value} (hneedle : needle.isConstant = false) :
    (vs : List Value) → mentionsAny needle (substituteAll old new vs) = true →
      mentionsAny needle vs = true ∨ mentions needle new = true
  | [] => .inl
  | v :: vs => by
    intro h
    simp only [substituteAll, mentionsAny, Bool.or_eq_true] at h ⊢
    rcases h with h | h
    · exact (mentions_substitute hneedle v h).imp_left .inl
    · exact (mentionsAny_substituteAll hneedle vs h).imp_left .inr

end

mutual

theorem substitute_of_not_mentions {old new : Value} :
    (v : Value) → mentions old v = false → substitute old new v = v
  | instr _ | arg _ _ | block _ | func _ | global _ | int _ _ | float _ _ | null _ | undef _
  | zero _ | bytes _ => by
    intro h
    unfold substitute
    rw [if_neg (by simpa [mentions] using h)]
  | array ty vs | struct ty vs => by
    intro h
    simp only [mentions, Bool.or_eq_false_iff, beq_eq_false_iff_ne] at h
    unfold substitute
    rw [if_neg h.1, substituteAll_of_not_mentions vs h.2]
  | cast op v ty => by
    intro h
    simp only [mentions, Bool.or_eq_false_iff, beq_eq_false_iff_ne] at h
    unfold substitute
    rw [if_neg h.1, substitute_of_not_mentions v h.2]
  | gep inbounds source base vs ty => by
    intro h
    simp only [mentions, Bool.or_eq_false_iff, beq_eq_false_iff_ne] at h
    unfold substitute
    rw [if_neg h.1.1, substitute_of_not_mentions base h.1.2, substituteAll_of_not_mentions vs h.2]

theorem substituteAll_of_not_mentions {old new : Value} :
    (vs : List Value) → mentionsAny old vs = false → substituteAll old new vs = vs
  | [] => fun _ => rfl
  | v :: vs => by
    intro h
    simp only [mentionsAny, Bool.or_eq_false_iff] at h
    rw [substituteAll, substitute_of_not_mentions v h.1, substituteAll_of_not_mentions vs h.2]

end

/-- Whether this is a part of a function: an instruction, an argument or a block. -/
def isLocal : Value → Bool
  | instr _ | arg _ _ | block _ => true
  | _ => false

/-- No part of a function stands inside the value. -/
def Flat (v : Value) : Prop :=
  ∀ w, w.isLocal = true → mentions w v = true → w = v

theorem mentions_of_isLocal {v w : Value} (hv : v.isLocal = true) (h : mentions w v = true) :
    w = v := by
  cases v <;> simp [isLocal] at hv <;>
    · simp only [mentions, beq_iff_eq] at h
      exact h.symm

theorem flat_of_isLocal {v : Value} (h : v.isLocal = true) : v.Flat :=
  fun _ _ hw => mentions_of_isLocal h hw

theorem flat_of_simple {v : Value} (hv : ∀ w, mentions w v = (v == w)) : v.Flat := by
  intro w _ hw
  rw [hv w] at hw
  exact (beq_iff_eq.mp hw).symm

theorem flat_func (k : FuncId) : (func k).Flat :=
  flat_of_simple fun w => by simp only [mentions]

theorem flat_int (bits : Nat) (value : Int) : (int bits value).Flat :=
  flat_of_simple fun w => by simp only [mentions]

theorem flat_undef (ty : Ty) : (undef ty).Flat :=
  flat_of_simple fun w => by simp only [mentions]

theorem Flat.substitute {v old : Value} (h : v.Flat) (hold : old.isLocal = true) (new : Value) :
    Value.substitute old new v = if v = old then new else v := by
  by_cases hv : v = old
  · subst hv
    rw [if_pos rfl]
    cases v <;> simp [isLocal] at hold <;> simp [Value.substitute]
  · rw [if_neg hv]
    refine substitute_of_not_mentions v (Bool.eq_false_iff.mpr fun hmentions => ?_)
    exact hv (h old hold hmentions).symm

end Value

/-! ## 2. Instructions -/

namespace Instr

theorem uses_iff {i : Instr} {v : Value} :
    i.uses v = true ↔ ∃ w ∈ i.operands, Value.mentions v w = true := by
  simp [uses]

theorem uses_of_mem {i : Instr} {v : Value} (h : v ∈ i.operands) : i.uses v = true :=
  uses_iff.mpr ⟨v, h, v.mentions_self⟩

theorem mem_of_calledFunction? {i : Instr} {f : FuncId} (h : i.calledFunction? = some f) :
    .func f ∈ i.operands := by
  unfold calledFunction? callee? at h
  split at h
  · obtain ⟨v, hv, hf⟩ := Option.bind_eq_some_iff.mp h
    cases v <;> cases hf
    exact List.mem_of_getLast? hv
  · cases h

theorem mem_of_toBlock? {vs : List Value} {c : BlockId} (h : c ∈ vs.filterMap Value.toBlock?) :
    .block c ∈ vs := by
  obtain ⟨v, hv, hc⟩ := List.mem_filterMap.mp h
  cases v <;> cases hc
  exact hv

theorem mem_of_successors {i : Instr} {c : BlockId} (h : c ∈ i.successors) :
    .block c ∈ i.operands := by
  unfold successors at h
  split at h
  · exact mem_of_toBlock? h
  · exact mem_of_toBlock? h
  · unfold invokeDestinations? at h
    split at h
    · rename_i normal unwind hdest
      split at hdest
      · rename_i n u callee hkind hdrop
        cases hdest
        have hmem : ∀ w ∈ i.operands.drop (i.operands.length - 3), w ∈ i.operands :=
          fun w hw => List.mem_of_mem_drop hw
        rw [hdrop] at hmem
        rcases List.mem_cons.mp h with rfl | h
        · exact hmem _ List.mem_cons_self
        · rw [List.mem_singleton.mp h]
          exact hmem _ (List.mem_cons_of_mem _ List.mem_cons_self)
      · cases hdest
    · cases h
  · cases h

theorem isTerminator_of_successors {i : Instr} {c : BlockId} (h : c ∈ i.successors) :
    i.isTerminator = true := by
  unfold successors at h
  unfold isTerminator InstrKind.isTerminator
  split at h <;> simp_all

end Instr

/-! ## 3. Users -/

namespace Program

variable {p : Program}

theorem mem_usersOf_instr {v : Value} {i : InstrId} : .instr i ∈ p.usersOf v ↔
    (p.instr i).erased = false ∧ (p.instr i).parent.isSome = true ∧ (p.instr i).uses v = true := by
  have hids : i ∈ p.instrIds ↔ i.index < p.instrs.size := by
    simp only [instrIds, List.mem_map, List.mem_range]
    exact ⟨fun ⟨n, hn, h⟩ => h ▸ hn, fun h => ⟨i.index, h, rfl⟩⟩
  simp only [usersOf, List.mem_append, List.mem_map, List.mem_filter, hids, User.instr.injEq,
    exists_eq_right, reduceCtorEq, and_false, exists_false, or_false, Bool.and_eq_true,
    Bool.not_eq_eq_eq_not, Bool.not_true]
  constructor
  · rintro ⟨-, ⟨h₁, h₂⟩, h₃⟩
    exact ⟨h₁, h₂, h₃⟩
  · rintro ⟨h₁, h₂, h₃⟩
    exact ⟨instr_lt_of_live h₁, ⟨h₁, h₂⟩, h₃⟩

theorem global_lt_of_uses {g : GlobalId} {v : Value} (h : (p.global g).uses v = true) :
    g.index < p.globals.size := by
  by_contra hlt
  unfold global at h
  rw [Array.getD_eq_getD_getElem?, Array.getElem?_eq_none (Nat.not_lt.mp hlt)] at h
  cases h

theorem mem_usersOf_global {v : Value} {g : GlobalId} :
    .global g ∈ p.usersOf v ↔ (p.global g).uses v = true := by
  have hids : g ∈ p.globalIds ↔ g.index < p.globals.size := by
    simp only [globalIds, List.mem_map, List.mem_range]
    refine ⟨fun h => ?_, fun h => ⟨g.index, h, rfl⟩⟩
    obtain ⟨n, hn, rfl⟩ := h
    exact hn
  simp only [usersOf, List.mem_append, List.mem_map, List.mem_filter, hids, User.global.injEq,
    exists_eq_right, reduceCtorEq, and_false, exists_false, false_or]
  exact ⟨fun h => h.2, fun h => ⟨global_lt_of_uses h, h⟩⟩

theorem hasUses_iff {v : Value} : p.hasUses v = true ↔
    (∃ i, (p.instr i).erased = false ∧ (p.instr i).parent.isSome = true ∧
      (p.instr i).uses v = true) ∨ ∃ g, (p.global g).uses v = true := by
  unfold hasUses
  rw [Bool.or_eq_true, Array.any_eq_true, Array.any_eq_true]
  refine or_congr ⟨?_, ?_⟩ ⟨?_, ?_⟩
  · rintro ⟨n, hn, h⟩
    refine ⟨⟨n⟩, ?_⟩
    simp only [Bool.and_eq_true, Bool.not_eq_eq_eq_not, Bool.not_true] at h
    simpa [instr, hn, and_assoc] using h
  · rintro ⟨i, hlive, h⟩
    refine ⟨i.index, instr_lt_of_live hlive, ?_⟩
    have hlt := instr_lt_of_live hlive
    simp only [instr, Array.getD_eq_getD_getElem?, Array.getElem?_eq_getElem hlt,
      Option.getD_some] at hlive h
    simp [hlive, h.1, h.2]
  · rintro ⟨n, hn, h⟩
    exact ⟨⟨n⟩, by simpa [global, hn] using h⟩
  · rintro ⟨g, h⟩
    have hlt := global_lt_of_uses h
    refine ⟨g.index, hlt, ?_⟩
    simpa [global, hlt] using h

theorem substitute_of_not_uses {i : Instr} {old : Value} (h : i.uses old = false) (new : Value) :
    i.operands.map (Value.substitute old new) = i.operands := by
  refine (List.map_congr_left fun v hv => ?_).trans (List.map_id _)
  exact Value.substitute_of_not_mentions v (Bool.eq_false_iff.mpr (List.any_eq_false.mp h v hv))

theorem instr_replaceUses_live {a e : InstrId} (ha : (p.instr a).erased = false) (v : Value) :
    (p.replaceUses (.instr e) v).instr a = { p.instr a with
      operands := (p.instr a).operands.map (Value.substitute (.instr e) v) } := by
  rw [instr_replaceUses, ha]
  cases huses : (p.instr a).uses (.instr e) with
  | true => rfl
  | false =>
    rw [substitute_of_not_uses huses]
    rfl

/-- A replacement brings in nothing but what the new value mentions. -/
theorem uses_replaceUses {old new needle : Value} (hneedle : needle.isConstant = false)
    {i : InstrId} (h : ((p.replaceUses old new).instr i).uses needle = true) :
    (p.instr i).uses needle = true ∨ Value.mentions needle new = true := by
  rw [instr_replaceUses] at h
  split at h
  · obtain ⟨w, hw, hmentions⟩ := Instr.uses_iff.mp h
    obtain ⟨v, hv, rfl⟩ := List.mem_map.mp hw
    exact (Value.mentions_substitute hneedle v hmentions).imp_left fun h =>
      Instr.uses_iff.mpr ⟨v, hv, h⟩
  · exact .inl h

theorem global_replaceUses (p : Program) (old new : Value) (g : GlobalId) :
    (p.replaceUses old new).global g =
      if (p.global g).uses old then
        { p.global g with initializer := (p.global g).initializer.map (Value.substitute old new) }
      else p.global g := by
  by_cases hlt : g.index < p.globals.size
  · simp [global, replaceUses, hlt]
  · have hout : (p.global g).uses old = false :=
      Bool.eq_false_iff.mpr fun h => hlt (global_lt_of_uses h)
    rw [if_neg (by simp [hout])]
    simp [global, replaceUses, hlt]

theorem global_uses_replaceUses {old new needle : Value} (hneedle : needle.isConstant = false)
    {g : GlobalId} (h : ((p.replaceUses old new).global g).uses needle = true) :
    (p.global g).uses needle = true ∨ Value.mentions needle new = true := by
  rw [global_replaceUses] at h
  split at h
  · unfold Global.uses at h ⊢
    dsimp only at h
    cases hinit : (p.global g).initializer with
    | none =>
      rw [hinit] at h
      cases h
    | some v =>
      rw [hinit] at h
      exact Value.mentions_substitute hneedle v h
  · exact .inl h

end Program

end QirProfile
