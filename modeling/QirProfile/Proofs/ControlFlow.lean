import QirProfile.Proofs.Cleanup
import QirProfile.Proofs.Program.FittingFunctions
import QirProfile.Proofs.Rule.Matching

/-!
# Folding keeps a function fitting

Folding a function replaces instructions by values, branches by shorter ones, and invokes by calls.
The function stays as it should be, whatever is doomed in other functions (`Foldable`).
-/

namespace QirProfile

namespace Program

variable {γ : Layers} {U D X : List InstrId} {p q : Program} {c : FuncId}
variable {i id : InstrId} {v : Value} {n : Nat}

/-! ## 1. Functions that can be folded -/

/-- A live function with nothing doomed in it. Instructions of `D` are left out of account. -/
structure Foldable (γ : Layers) (X D : List InstrId) (c : FuncId) (p : Program) : Prop where
  fitting : Fitting γ X D p
  live : (p.func c).erased = false
  aside : ∀ d ∈ X, ∃ f, f ≠ c ∧ p.functionOf? d = some f

theorem Foldable.next {D' : List InstrId} (h : Foldable γ X D c p) (hfits : Fitting γ X D' q)
    (hs : Spares (· = c) p q) (hfunc : q.func c = p.func c) : Foldable γ X D' c q where
  fitting := hfits
  live := hfunc ▸ h.live
  aside d hd := by
    obtain ⟨f, hne, hf⟩ := h.aside d hd
    exact ⟨f, hne, hs.functionOf hne hf⟩

theorem Foldable.not_mem (h : Foldable γ X D c p) (hi : p.functionOf? i = some c) :
    i ∉ X := by
  intro hmem
  obtain ⟨f, hne, hf⟩ := h.aside i hmem
  exact hne (Option.some.inj (hf.symm.trans hi))

/-- An instruction of a function, or what is left of it. -/
def Inside (c : FuncId) (p : Program) (i : InstrId) : Prop :=
  i.index < p.instrs.size ∧ ((p.instr i).erased = true ∨ p.functionOf? i = some c)

theorem inside_of_functionOf (hp : p.Sound) (h : p.functionOf? i = some c) :
    Inside c p i :=
  ⟨instr_lt_of_live (hp.live_of_functionOf h), .inr h⟩

theorem Spares.inside {K : FuncId → Prop} (h : Spares K p q) (hq : q.Sound)
    (hi : Inside c p i) : Inside c q i := by
  obtain ⟨hlt, hi⟩ := hi
  refine ⟨Nat.lt_of_lt_of_le hlt h.buries.instrs, ?_⟩
  rcases hi with hi | hi
  · exact .inl (h.buries.erasedInstr i hlt hi)
  cases hlive : (q.instr i).erased with
  | true => exact .inl rfl
  | false =>
    obtain ⟨b, hb, hparent⟩ := Option.bind_eq_some_iff.mp hi
    have hib := (h.parent i hlt hlive).trans hb
    have hblock := hq.block_live (hq.mem_instrs.mpr hib)
    exact .inr (Option.bind_eq_some_iff.mpr
      ⟨b, hib, (h.blockParent b (block_lt_of_parent hparent) hblock).trans hparent⟩)

/-! ## 2. Constants -/

theorem fold?_chooses (h : p.fold? id = some v) :
    (p.instr id).isTerminator = false ∧ (∀ marker, (p.instr id).kind ≠ .call marker) ∧
      v ≠ .instr id ∧ ((∃ bits n, v = .int bits n) ∨
        ((p.instr id).isPhi = true ∨ (p.instr id).kind = .select) ∧
          v ∈ (p.instr id).operands) := by
  unfold fold? at h
  dsimp only at h
  unfold Instr.isTerminator Instr.isPhi
  split at h
  · cases h
  split at h
  · rename_i op bits a bits' b rest hkind hoperands
    obtain ⟨width, -, h⟩ := Option.bind_eq_some_iff.mp h
    obtain ⟨n, -, h⟩ := Option.bind_eq_some_iff.mp h
    cases h
    rw [hkind]
    exact ⟨rfl, nofun, nofun, .inl ⟨_, _, rfl⟩⟩
  · rename_i pred lhs rhs rest hkind hoperands
    obtain ⟨b, -, rfl⟩ := Option.map_eq_some_iff.mp h
    rw [hkind]
    exact ⟨rfl, nofun, nofun, .inl ⟨_, _, rfl⟩⟩
  · rename_i op bits a rest hkind hoperands
    obtain ⟨width, -, h⟩ := Option.bind_eq_some_iff.mp h
    obtain ⟨n, -, h⟩ := Option.bind_eq_some_iff.mp h
    cases h
    rw [hkind]
    exact ⟨rfl, nofun, nofun, .inl ⟨_, _, rfl⟩⟩
  · rename_i bits n rest hkind hoperands
    have hchosen : v ∈ rest ∧ v ≠ .instr id := by
      split at h
      all_goals
        obtain ⟨chosen, hchosen, h⟩ := Option.bind_eq_some_iff.mp h
        split at h
        · cases h
        · rename_i hne
          cases h
          exact ⟨List.mem_of_getElem? hchosen, hne⟩
    rw [hkind, hoperands]
    exact ⟨rfl, nofun, hchosen.2, .inr ⟨.inr rfl, List.mem_cons_of_mem _ hchosen.1⟩⟩
  · rename_i blocks first rest hkind hoperands
    split at h
    · rename_i hall
      cases h
      rw [hkind, hoperands]
      exact ⟨rfl, nofun, hall.2, .inr ⟨.inl rfl, List.mem_cons_self⟩⟩
    · cases h
  · cases h

theorem fold?_cases (h : p.fold? id = some v) :
    (p.instr id).isTerminator = false ∧ (∀ marker, (p.instr id).kind ≠ .call marker) ∧
      v ≠ .instr id ∧ ((∃ bits n, v = .int bits n) ∨ v ∈ (p.instr id).operands) := by
  obtain ⟨hterm, hcall, hne, hvalue⟩ := fold?_chooses h
  exact ⟨hterm, hcall, hne, hvalue.imp_right (·.2)⟩

theorem foldAway_spares (hp : p.Sound) (hid : p.functionOf? id = some c)
    (hq : p.foldAway id v = .ok q) : q.Sound ∧ Spares (· = c) p q := by
  obtain ⟨hlive, rfl⟩ := eraseInstr_ok.mp hq
  have hsound := ((sameFrame_replaceUses p (.instr id) v).evolves hp).1
  have hin := (((sameFrame_replaceUses p (.instr id) v).places fun _ => rfl).functionOf id).trans hid
  refine ⟨(evolves_dropInstr hlive hsound).1, (spares_replaceUses hp id v).trans
    (spares_dropInstr hsound hlive fun f hf => ?_)⟩
  exact Option.some.inj (hf.symm.trans hin)

theorem Sound.inside (hp : p.Sound) : ∀ i ∈ p.instrsOf c, Inside c p i :=
  fun _ hi => inside_of_functionOf hp (hp.mem_instrsOf.mp hi)

section

variable {P : Program → Prop} (hsound : ∀ p, P p → p.Sound)
  (hstep : ∀ p q id v, P p → p.functionOf? id = some c → p.fold? id = some v →
    p.foldAway id v = .ok q → P q)

include hsound hstep

theorem foldRound_carries {ids : List InstrId} (hp : P p) (hids : ∀ i ∈ ids, Inside c p i)
    (hq : p.foldRound ids = .ok (q, n)) : P q := by
  induction ids generalizing p n with
  | nil =>
    cases hq
    exact hp
  | cons id ids ih =>
    have hrest : ∀ i ∈ ids, Inside c p i := fun i hi => hids i (List.mem_cons_of_mem _ hi)
    unfold Program.foldRound at hq
    split at hq
    · exact ih hp hrest hq
    rename_i v hv
    obtain ⟨p₁, h₁, hq⟩ := except_bind_ok.mp hq
    obtain ⟨⟨p₂, m⟩, h₂, hq⟩ := except_bind_ok.mp hq
    cases hq
    have hid : p.functionOf? id = some c := by
      refine (hids id List.mem_cons_self).2.resolve_left ?_
      rw [live_of_fold? hv]
      exact Bool.false_ne_true
    obtain ⟨hp₁, hspares⟩ := foldAway_spares (hsound p hp) hid h₁
    exact ih (hstep p p₁ id v hp hid hv h₁) (fun i hi => hspares.inside hp₁ (hrest i hi)) h₂

theorem foldRounds_carries {fuel : Nat} (hp : P p) (hq : foldRounds c fuel p = .ok (q, n)) :
    P q := by
  induction fuel generalizing p n with
  | zero =>
    cases hq
    exact hp
  | succ fuel ih =>
    unfold Program.foldRounds at hq
    obtain ⟨⟨p₁, m⟩, h₁, hq⟩ := except_bind_ok.mp hq
    have hround : P p₁ := foldRound_carries hsound hstep hp (hsound p hp).inside h₁
    dsimp only at hq
    split at hq
    · cases hq
      exact hround
    · obtain ⟨⟨p₂, k⟩, h₂, hq⟩ := except_bind_ok.mp hq
      cases hq
      exact ih hround h₂

end

theorem Fits.of_not_call {f : FuncId} {i : Instr} (h : Fits γ U p f i)
    (hkind : ∀ marker, i.kind ≠ .call marker) : ∀ v ∈ i.operands, OperandFits γ U p f v := by
  rcases h.operands with hall | ⟨marker, -, -, hcall, -⟩
  · exact hall
  · exact absurd hcall (hkind marker)

theorem Fitting.remove {id : InstrId} (h : Fitting γ U (id :: D) p)
    (hlive : (p.instr id).erased = false)
    (hunused : ∀ f i, (p.func f).erased = false → p.functionOf? i = some f → i ∉ id :: D →
      .instr id ∉ (p.instr i).operands) : Fitting γ U D (p.dropInstr id) := by
  have hlt := instr_lt_of_live hlive
  refine ((h.disuse hlt hunused).dropInstr List.mem_cons_self List.mem_cons_self hlive).forget
    (fun _ hi => List.mem_cons_of_mem _ hi) (fun _ hi => List.mem_cons_of_mem _ hi)
    fun i hi hnot => ?_
  obtain rfl := (List.mem_cons.mp hi).resolve_right hnot
  rw [instr_dropInstr_self hlt]

theorem Foldable.foldAway (h : Foldable γ X X c p)
    (hid : p.functionOf? id = some c) (hv : p.fold? id = some v) (hq : p.foldAway id v = .ok q) :
    Foldable γ X X c q ∧ Spares (· = c) p q := by
  have hspares := (foldAway_spares h.fitting.sound hid hq).2
  obtain ⟨hlive, rfl⟩ := eraseInstr_ok.mp hq
  obtain ⟨hterm, hcall, hne, hvalue⟩ := fold?_cases hv
  have hfits : OperandFits γ X p c v := by
    rcases hvalue with ⟨bits, n, rfl⟩ | hmem
    · exact .of_int bits n
    · exact (h.fitting.fits hid h.live (h.not_mem hid)).of_not_call hcall v hmem
  have hreplaced : Fitting γ X X (p.replaceUses (.instr id) v) := by
    refine h.fitting.replaceUses fun f hf _ => ?_
    obtain rfl : c = f := Option.some.inj (hid.symm.trans hf)
    exact hfits
  have hplaces : ∀ i, (p.replaceUses (.instr id) v).functionOf? i = p.functionOf? i :=
    ((sameFrame_replaceUses p (.instr id) v).places fun _ => rfl).functionOf
  refine ⟨h.next ?_ hspares (func_dropInstr ..), hspares⟩
  refine (hreplaced.ignore (instr_lt_of_live hlive) ?_).remove hlive fun f i hf hi hnot => ?_
  · unfold Instr.isTerminator at hterm ⊢
    rwa [kind_replaceUses]
  · exact h.fitting.not_mem_replaceUses hne hf ((hplaces i).symm.trans hi)
      fun hmem => hnot (List.mem_cons_of_mem _ hmem)

theorem Foldable.foldRounds {fuel : Nat} (h : Foldable γ X X c p)
    (hq : foldRounds c fuel p = .ok (q, n)) : Foldable γ X X c q ∧ Spares (· = c) p q := by
  refine foldRounds_carries (P := fun q => Foldable γ X X c q ∧ Spares (· = c) p q)
    (fun q hq => hq.1.fitting.sound) (fun q r id v hq hid hv hr => ?_)
    ⟨h, .refl h.fitting.sound⟩ hq
  obtain ⟨hfold, hspares⟩ := hq.1.foldAway hid hv hr
  exact ⟨hfold, hq.2.trans hspares⟩

/-! ## 3. What is scheduled goes -/

theorem Fitting.undefine (h : Fitting γ U D p) (id : InstrId) :
    ∃ r, (if p.hasUses (.instr id) then p.replaceUses (.instr id) (.undef (p.instr id).ty)
        else p) = r ∧
      Fitting γ U D r ∧ p.SameFrame r ∧ (∀ f, r.func f = p.func f) ∧
      (∀ K : FuncId → Prop, Spares K p r) ∧
      ∀ f i, (r.func f).erased = false → r.functionOf? i = some f → i ∉ D →
        .instr id ∉ (r.instr i).operands := by
  by_cases huses : p.hasUses (.instr id) = true
  · rw [if_pos huses]
    have hs := sameFrame_replaceUses p (.instr id) (.undef (p.instr id).ty)
    refine ⟨_, rfl, h.replaceUses fun _ _ _ => .of_undef _, hs, fun _ => rfl,
      fun K => spares_replaceUses h.sound id _, fun f i hf hi hD => ?_⟩
    rw [(hs.places fun _ => rfl).functionOf] at hi
    exact h.not_mem_replaceUses (v := .undef _) nofun hf hi hD
  · rw [if_neg huses]
    refine ⟨_, rfl, h, .refl p, fun _ => rfl, fun K => .refl h.sound, fun f i hf hi hD hmem => ?_⟩
    refine huses (hasUses_iff.mpr (.inl ⟨i, h.sound.live_of_functionOf hi, ?_, ?_⟩))
    · obtain ⟨b, hb, -⟩ := Option.bind_eq_some_iff.mp hi
      rw [hb]
      rfl
    · exact Instr.uses_of_mem hmem

theorem Foldable.deleteInstr (h : Foldable γ X (id :: D) c p) (hid : Inside c p id)
    (hq : p.deleteInstr id = .ok q) : Foldable γ X D c q ∧ Spares (· = c) p q := by
  obtain ⟨r, hr, hfits, hs, hfunc, hspares, hunused⟩ := h.fitting.undefine id
  unfold Program.deleteInstr at hq
  dsimp only at hq
  rw [hr] at hq
  obtain ⟨hlive, rfl⟩ := eraseInstr_ok.mp hq
  have hin : r.functionOf? id = some c := by
    have hinside := (hspares fun _ => False).inside hfits.sound hid
    refine hinside.2.resolve_left ?_
    rw [hlive]
    exact Bool.false_ne_true
  have hall : Spares (· = c) p (r.dropInstr id) := (hspares _).trans
    (spares_dropInstr hfits.sound hlive fun f hf => Option.some.inj (hf.symm.trans hin))
  refine ⟨h.next (hfits.remove hlive hunused) hall ?_, hall⟩
  rw [func_dropInstr, hfunc]

theorem Foldable.replaceEach {rs : List Replacement}
    (h : Foldable γ X (rs.map (·.old) ++ X) c p)
    (hrs : ∀ r ∈ rs, r.new = none ∧ Inside c p r.old) (hq : replaceEach rs p = .ok n q) :
    Foldable γ X X c q ∧ Spares (· = c) p q := by
  induction rs generalizing p n with
  | nil =>
    cases hq
    exact ⟨h, .refl h.fitting.sound⟩
  | cons r rs ih =>
    obtain ⟨hnew, hinside⟩ := hrs r List.mem_cons_self
    have hrest : ∀ x ∈ rs, x.new = none ∧ Inside c p x.old := fun x hx =>
      hrs x (List.mem_cons_of_mem _ hx)
    unfold Program.replaceEach at hq
    obtain ⟨_, _, h₁, hq⟩ := bind_ok hq
    obtain ⟨rfl, rfl⟩ := get_ok h₁
    split at hq
    · rename_i herased
      refine ih ⟨h.fitting.forget (fun _ hi => hi) (fun _ hi => List.mem_cons_of_mem _ hi) ?_,
        h.live, h.aside⟩ hrest hq
      intro i hi hnot
      obtain rfl := (List.mem_cons.mp hi).resolve_right hnot
      exact herased
    · obtain ⟨_, p₁, h₂, hq⟩ := bind_ok hq
      obtain ⟨m, p₂, h₃, hq⟩ := bind_ok hq
      obtain ⟨-, rfl⟩ := pure_ok hq
      have hone := attempt_ok.mp h₂
      unfold replaceOne at hone
      rw [hnew] at hone
      obtain ⟨hdeleted, hspares⟩ := h.deleteInstr hinside hone
      obtain ⟨hall, hspares'⟩ := ih hdeleted
        (fun x hx => ⟨(hrest x hx).1, hspares.inside hdeleted.fitting.sound (hrest x hx).2⟩) h₃
      exact ⟨hall, hspares.trans hspares'⟩

theorem compileEdit_ok {α : Type} {e : Edit α} {a : α} :
    Compile.edit e p = .ok a q ↔ e p = .ok a q := by
  unfold Compile.edit
  cases e p <;> simp

theorem Foldable.carryOut {rs : List Replacement}
    (h : Foldable γ X (rs.map (·.old) ++ X) c p)
    (hrs : ∀ r ∈ rs, r.new = none ∧ Inside c p r.old) (hq : carryOut rs p = .ok n q) :
    Foldable γ X X c q ∧ Spares (· = c) p q := by
  unfold QirProfile.carryOut at hq
  cases hrepeated : firstRepeated? [] (rs.map (·.old)) with
  | some id =>
    rw [hrepeated] at hq
    cases hq
  | none =>
    rw [hrepeated] at hq
    have hsame : ∀ i, i ∈ rs.reverse.map (·.old) ++ X ↔ i ∈ rs.map (·.old) ++ X := by simp
    refine Foldable.replaceEach ⟨h.fitting.forget (fun _ hi => hi) (fun i hi => (hsame i).mp hi)
      fun i hi hnot => absurd ((hsame i).mpr hi) hnot, h.live, h.aside⟩
      (fun r hr => hrs r (List.mem_reverse.mp hr)) (compileEdit_ok.mp hq)

end Program

/-! ## 4. Patterns -/

namespace Pattern

theorem mem_of_matchAll? {p : Program} {qs : List Pattern} (hqs : ∀ q ∈ qs, q.children = [])
    {vs : List Value} {c c' : Captures} (h : matchAll? p qs vs c = some c') {name : String}
    {v : Value} (hmem : (name, v) ∈ c') : (name, v) ∈ c ∨ v ∈ vs := by
  induction qs generalizing vs c with
  | nil =>
    obtain ⟨-, rfl⟩ := matchAll?_nil.mp h
    exact .inl hmem
  | cons q qs ih =>
    obtain ⟨w, vs, c₁, rfl, h₁, h⟩ := matchAll?_cons.mp h
    obtain ⟨s, label, cs⟩ := q
    obtain rfl : cs = [] := hqs _ List.mem_cons_self
    obtain ⟨-, rfl⟩ := match?_leaf.mp h₁
    refine (ih (fun q hq => hqs q (List.mem_cons_of_mem _ hq)) h).elim (fun hold => ?_)
      fun hv => .inr (List.mem_cons_of_mem _ hv)
    cases label with
    | none => exact .inl hold
    | some label =>
      rcases List.mem_cons.mp hold with heq | hold
      · cases heq
        exact .inr List.mem_cons_self
      · exact .inl (List.mem_of_mem_filter hold)

theorem branch_matched {p : Program} {id : InstrId} {cond ifFalse ifTrue : Pattern}
    {captures : Captures} (hleaves : ∀ q ∈ [cond, ifFalse, ifTrue], q.children = [])
    (h : (branch cond ifFalse ifTrue).match? p (.instr id) [] = some captures) :
    (p.instr id).kind = .br ∧
      ∀ name b, captures.block? name = some b → .block b ∈ (p.instr id).operands := by
  obtain ⟨hshape, hall⟩ := (match?_inner (List.cons_ne_nil _ _)).mp h
  constructor
  · simp only [Shape.test, Program.liveKind?, Value.toInstr?, Option.bind_some,
      beq_iff_eq] at hshape
    split at hshape
    · cases hshape
    · exact Option.some.inj hshape
  · intro name b hb
    obtain ⟨v, hv, hto⟩ := Option.bind_eq_some_iff.mp hb
    cases v <;> cases hto
    obtain ⟨front, back, rfl, -⟩ := List.lookup_eq_some_iff.mp hv
    have hmem : (name, Value.block b) ∈ front ++ (name, Value.block b) :: back :=
      List.mem_append_right _ List.mem_cons_self
    exact (mem_of_matchAll? hleaves hall hmem).resolve_left List.not_mem_nil

end Pattern

/-! ## 5. Rules -/

namespace Replacing

open Program

variable {γ : Layers} {X todo : List InstrId} {c : FuncId} {s s' : RuleState Unit}

theorem edit_ok {σ α : Type} {s s' : RuleState σ} {e : Edit α} {a : α} :
    edit e s = .ok a s' ↔ ∃ q, e s.program = .ok a q ∧ s' = { s with program := q } := by
  unfold edit
  cases e s.program <;> simp [eq_comm]

/-- The function is being folded: what is scheduled stands in it and is left out of account, and
    the instructions of `todo` have not been looked at. -/
structure Scheduling (γ : Layers) (X : List InstrId) (c : FuncId) (todo : List InstrId)
    (s : RuleState Unit) : Prop where
  foldable : Foldable γ X (s.scheduled.map (·.old) ++ X) c s.program
  deletes : ∀ r ∈ s.scheduled, r.new = none ∧ s.program.functionOf? r.old = some c
  waiting : ∀ i ∈ todo, s.program.functionOf? i = some c ∧ ∀ r ∈ s.scheduled, r.old ≠ i
  nodup : todo.Nodup

/-- What a step of folding leads to. -/
def Advances (γ : Layers) (X : List InstrId) (c : FuncId) (todo : List InstrId)
    (s s' : RuleState Unit) : Prop :=
  Scheduling γ X c todo s' ∧ Spares (fun _ => False) s.program s'.program

theorem Scheduling.not_mem {id : InstrId} (h : Scheduling γ X c (id :: todo) s) :
    id ∉ s.scheduled.map (·.old) ++ X := by
  obtain ⟨hid, hnew⟩ := h.waiting id List.mem_cons_self
  intro hmem
  rcases List.mem_append.mp hmem with hmem | hmem
  · obtain ⟨r, hr, hold⟩ := List.mem_map.mp hmem
    exact hnew r hr hold
  · exact h.foldable.not_mem hid hmem

theorem Scheduling.fits {id : InstrId} (h : Scheduling γ X c (id :: todo) s) :
    Fits γ X s.program c (s.program.instr id) :=
  h.foldable.fitting.fits (h.waiting id List.mem_cons_self).1 h.foldable.live h.not_mem

theorem Scheduling.advance {id : InstrId} {q : Program} (h : Scheduling γ X c (id :: todo) s)
    (hfits : Fitting γ X (id :: (s.scheduled.map (·.old) ++ X)) q)
    (hspares : Spares (fun _ => False) s.program q) (hfunc : q.func c = s.program.func c) :
    Advances γ X c todo s
      { s with program := q, scheduled := s.scheduled ++ [⟨id, none⟩] } := by
  have hsame : ∀ i, i ∈ (s.scheduled ++ [(⟨id, none⟩ : Replacement)]).map (·.old) ++ X ↔
      i ∈ id :: (s.scheduled.map (·.old) ++ X) := by
    intro i
    simp only [List.map_append, List.map_cons, List.map_nil, List.mem_append, List.mem_cons,
      List.not_mem_nil, or_false]
    rw [or_right_comm, or_comm]
  obtain ⟨hid, -⟩ := h.waiting id List.mem_cons_self
  obtain ⟨hnot, hnodup⟩ := List.nodup_cons.mp h.nodup
  refine ⟨⟨h.foldable.next ?_ (hspares.mono h.foldable.fitting.sound fun _ _ => False.elim) hfunc,
    fun r hr => ?_, fun i hi => ?_, hnodup⟩, hspares⟩
  · exact hfits.forget (fun _ hi => hi) (fun i hi => (hsame i).mp hi)
      fun i hi hout => absurd ((hsame i).mpr hi) hout
  · rcases List.mem_append.mp hr with hr | hr
    · exact ⟨(h.deletes r hr).1, hspares.functionOf not_false (h.deletes r hr).2⟩
    · rw [List.mem_singleton.mp hr]
      exact ⟨rfl, hspares.functionOf not_false hid⟩
  · obtain ⟨hi', hnew⟩ := h.waiting i (List.mem_cons_of_mem _ hi)
    refine ⟨hspares.functionOf not_false hi', fun r hr => ?_⟩
    rcases List.mem_append.mp hr with hr | hr
    · exact hnew r hr
    · rw [List.mem_singleton.mp hr]
      rintro rfl
      exact hnot hi

/-- A rule that is tried on an instruction schedules it, or does nothing at all. -/
def Handles (γ : Layers) (X : List InstrId) (c : FuncId) (r : Rule Unit) : Prop :=
  ∀ {id todo captures f s b s'}, r.replacer = some f → match? r s.program id = some captures →
    Scheduling γ X c (id :: todo) s → f id captures s = .ok b s' →
    b = false ∧ s' = s ∨ b = true ∧ Advances γ X c todo s s'

theorem parent_of_anchored {p q : Program} {d : Edit.Draft} {id new : InstrId} {b : BlockId}
    {front back : List InstrId} (h : Inserted p q d id new b front back)
    (hid : p.functionOf? id = some c) : (p.block b).parent = some c := by
  obtain ⟨b', hb', hparent⟩ := Option.bind_eq_some_iff.mp hid
  rw [h.anchored, Option.some_inj] at hb'
  exact hb' ▸ hparent

theorem fits_draftBr {U : List InstrId} {p : Program} {taken : BlockId}
    (h : OperandFits γ U p c (.block taken)) : Fits γ U p c (draftBr taken).instr := by
  refine ⟨nofun, .inl fun v hv => ?_⟩
  rw [List.mem_singleton.mp hv]
  exact h

/-- The edge to a block has been cut where there was one to cut. -/
def Cut (dropped : BlockId) (p q : Program) : Prop :=
  q = p ∨ ∃ source, p.cutEdge dropped source = .ok q

theorem cut_of_ok {source : Option BlockId} {dropped : BlockId} {u : PUnit}
    (h : (source.forM fun b => edit (Edit.attempt (·.cutEdge dropped b))) s = .ok u s') :
    ∃ q, s' = { s with program := q } ∧ Cut dropped s.program q := by
  cases source with
  | none =>
    obtain ⟨-, rfl⟩ := pure_ok h
    exact ⟨s.program, rfl, .inl rfl⟩
  | some b =>
    obtain ⟨q, hcut, rfl⟩ := edit_ok.mp h
    exact ⟨q, rfl, .inr ⟨b, attempt_ok.mp hcut⟩⟩

theorem Cut.refits {U D : List InstrId} {K : FuncId → Prop} {dropped : BlockId} {p q : Program}
    (h : Cut dropped p q) : Refits γ U D K p q ∧ ∀ f, q.func f = p.func f := by
  rcases h with rfl | ⟨source, hcut⟩
  · exact ⟨refl_of (Refits γ U D K) _, fun _ => rfl⟩
  · exact ⟨refits_cutEdge hcut, (cutEdge_ok hcut).2.1⟩

theorem settleBranch_ok {id : InstrId} {captures : Captures} {accepted : Bool}
    (h : settleBranch id captures s = .ok accepted s') :
    accepted = false ∧ s' = s ∧ (captures.int? "cond" = none ∨ captures.block? "if_true" = none ∨
      captures.block? "if_false" = none) ∨
    accepted = true ∧ ∃ taken dropped new p q,
      (captures.block? "if_true" = some taken ∨ captures.block? "if_false" = some taken) ∧
      Edit.insert (.before id) (draftBr taken) s.program = .ok new p ∧ Cut dropped p q ∧
      s' = { s with program := q, scheduled := s.scheduled ++ [⟨id, none⟩] } := by
  unfold settleBranch at h
  cases hcond : captures.int? "cond" <;> cases htrue : captures.block? "if_true" <;>
    cases hfalse : captures.block? "if_false" <;> rw [hcond, htrue, hfalse] at h
  case some.some.some number yes no =>
    dsimp only at h
    generalize hpair : (if number ≠ 0 then (yes, no) else (no, yes)) = pair at h
    obtain ⟨taken, dropped⟩ := pair
    have htaken : some yes = some taken ∨ some no = some taken := by
      split at hpair <;> cases hpair
      · exact .inl rfl
      · exact .inr rfl
    obtain ⟨new, s₁, hedit, h⟩ := bind_ok h
    obtain ⟨p, hinsert, rfl⟩ := edit_ok.mp hedit
    split at h
    · obtain ⟨_, _, hprogram, h⟩ := bind_ok h
      obtain ⟨_, s₂, hcut, h⟩ := bind_ok h
      cases hprogram
      obtain ⟨q, rfl, hq⟩ := cut_of_ok hcut
      cases h
      exact .inr ⟨rfl, taken, dropped, new, p, q, htaken, hinsert, hq, rfl⟩
    · cases h
      exact .inr ⟨rfl, taken, dropped, new, p, p, htaken, hinsert, .inl rfl, rfl⟩
  all_goals
    obtain ⟨rfl, rfl⟩ := pure_ok h
    exact .inl ⟨rfl, rfl, by simp⟩

theorem invokeToCall_ok {id : InstrId} {captures : Captures} {accepted : Bool}
    (h : invokeToCall id captures s = .ok accepted s') :
    accepted = false ∧ s' = s ∧ ((s.program.instr id).calledFunction? = none ∨
      (s.program.instr id).invokeDestinations? = none) ∨
    accepted = true ∧ ∃ callee normal unwind call new p₁ p₂ q,
      (s.program.instr id).calledFunction? = some callee ∧
      (s.program.instr id).invokeDestinations? = some (normal, unwind) ∧
      Edit.insert (.before id) (s.program.draftCall callee (s.program.instr id).arguments none)
        s.program = .ok call p₁ ∧
      Edit.insert (.before id) (draftBr normal) p₁ = .ok new p₂ ∧
      Cut unwind ((p₂.takeName id call).replaceUses (.instr id) (.instr call)) q ∧
      s' = { s with program := q, scheduled := s.scheduled ++ [⟨id, none⟩] } := by
  unfold invokeToCall at h
  obtain ⟨_, _, hprogram, h⟩ := bind_ok h
  cases hprogram
  dsimp only at h
  cases hcallee : (s.program.instr id).calledFunction? with
  | none =>
    rw [hcallee] at h
    obtain ⟨rfl, rfl⟩ := pure_ok h
    exact .inl ⟨rfl, rfl, .inl rfl⟩
  | some callee =>
    cases hdest : (s.program.instr id).invokeDestinations? with
    | none =>
      rw [hcallee, hdest] at h
      obtain ⟨rfl, rfl⟩ := pure_ok h
      exact .inl ⟨rfl, rfl, .inr rfl⟩
    | some dest =>
      obtain ⟨normal, unwind⟩ := dest
      rw [hcallee, hdest] at h
      dsimp only at h
      obtain ⟨_, _, hprogram, h⟩ := bind_ok h
      cases hprogram
      obtain ⟨call, s₁, hedit, h⟩ := bind_ok h
      obtain ⟨p₁, hcall, rfl⟩ := edit_ok.mp hedit
      obtain ⟨new, s₂, hedit, h⟩ := bind_ok h
      obtain ⟨p₂, hbr, rfl⟩ := edit_ok.mp hedit
      obtain ⟨_, s₃, hchange, h⟩ := bind_ok h
      cases hchange
      refine .inr ?_
      split at h
      · obtain ⟨_, s₄, hcut, h⟩ := bind_ok h
        obtain ⟨q, rfl, hq⟩ := cut_of_ok hcut
        cases h
        exact ⟨rfl, callee, normal, unwind, call, new, p₁, p₂, q, rfl, rfl, hcall, hbr, hq, rfl⟩
      · cases h
        exact ⟨rfl, callee, normal, unwind, call, new, p₁, p₂, _, rfl, rfl, hcall, hbr, .inl rfl, rfl⟩

theorem handles_settleBranch {cond ifFalse ifTrue : Pattern}
    (hleaves : ∀ q ∈ [cond, ifFalse, ifTrue], q.children = []) :
    Handles γ X c (.of (.branch cond ifFalse ifTrue) settleBranch) := by
  rintro id todo captures f s b s' ⟨⟩ hmatch hs h
  obtain ⟨hkind, htarget⟩ := Pattern.branch_matched hleaves hmatch
  rcases settleBranch_ok h with ⟨rfl, rfl, -⟩ |
    ⟨rfl, taken, dropped, new, p, q, htaken, hinsert, hcut, rfl⟩
  · exact .inl ⟨rfl, rfl⟩
  obtain ⟨block, front, back, hins⟩ := insert_before_ok hinsert
  have hterm : (s.program.instr id).isTerminator = true := by
    rw [Instr.isTerminator, hkind]
    rfl
  have hoperand : OperandFits γ X s.program c (.block taken) :=
    hs.fits.of_not_call (by rw [hkind]; exact fun _ h => InstrKind.noConfusion h) _
      (htaken.elim (htarget _ _) (htarget _ _))
  have hp := hins.fitting_terminator hs.foldable.fitting
    (parent_of_anchored hins (hs.waiting id List.mem_cons_self).1) hs.not_mem hterm rfl rfl
    (fits_draftBr hoperand)
  obtain ⟨hrefits, hfunc⟩ := hcut.refits
  obtain ⟨hq, hspares⟩ := hrefits hp
  exact .inr ⟨rfl, hs.advance hq ((hins.spares hs.foldable.fitting.sound).trans hspares)
    ((hfunc c).trans (hins.func c))⟩

theorem invoke_matched {p : Program} {id : InstrId} {captures : Captures}
    (h : Pattern.invoke.match? p (.instr id) [] = some captures) : (p.instr id).kind = .invoke := by
  have hshape := (Pattern.match?_leaf.mp h).1
  simp only [Shape.test, liveKind?, Value.toInstr?, Option.bind_some, beq_iff_eq] at hshape
  split at hshape
  · cases hshape
  · exact Option.some.inj hshape

theorem mem_of_invokeDestinations? {i : Instr} {normal unwind : BlockId}
    (h : i.invokeDestinations? = some (normal, unwind)) : .block normal ∈ i.operands := by
  unfold Instr.invokeDestinations? at h
  split at h
  · rename_i n u w hkind hdrop
    cases h
    refine List.mem_of_mem_drop (i := i.operands.length - 3) ?_
    rw [hdrop]
    exact List.mem_cons_self
  · cases h

theorem mem_of_arguments {i : Instr} {v : Value} (h : v ∈ i.arguments) : v ∈ i.operands := by
  unfold Instr.arguments at h
  split at h
  · exact List.mem_of_mem_take h
  · exact List.mem_of_mem_take h
  · cases h

theorem fits_draftCall {U : List InstrId} {p r : Program} {args : List Value} {callee : FuncId}
    {name : Option String} (hargs : ∀ v ∈ args, OperandFits γ U p c v)
    (hcallee : OperandFits γ U p c (.func callee)) :
    Fits γ U p c (r.draftCall callee args name).instr := by
  refine ⟨nofun, .inl fun v hv => ?_⟩
  rcases List.mem_append.mp hv with hv | hv
  · exact hargs v hv
  · rw [List.mem_singleton.mp hv]
    exact hcallee

theorem handles_invokeToCall : Handles γ X c (.of .invoke invokeToCall) := by
  rintro id todo captures f s b s' ⟨⟩ hmatch hs h
  have hkind := invoke_matched hmatch
  have hall := hs.fits.of_not_call (by rw [hkind]; exact nofun)
  have hterm : (s.program.instr id).isTerminator = true := by
    rw [Instr.isTerminator, hkind]
    rfl
  have hphi : (s.program.instr id).isPhi = false := by
    rw [Instr.isPhi, hkind]
  obtain ⟨hid, -⟩ := hs.waiting id List.mem_cons_self
  have hp := hs.foldable.fitting
  rcases invokeToCall_ok h with ⟨rfl, rfl, -⟩ |
    ⟨rfl, callee, normal, unwind, call, new, p₁, p₂, q, hcallee, hdest, hone, htwo, hcut, rfl⟩
  · exact .inl ⟨rfl, rfl⟩
  obtain ⟨b₁, front, back, hins⟩ := insert_before_ok hone
  have hb₁ := parent_of_anchored hins hid
  have hcall := hins.fitting hp hb₁ hs.not_mem hphi rfl rfl
    (fits_draftCall (fun v hv => hall v (mem_of_arguments hv))
      (hall _ (Instr.mem_of_calledFunction? hcallee)))
  have hspares₁ : Spares (fun _ => False) s.program p₁ := hins.spares hp.sound
  obtain ⟨b₂, front', back', hins'⟩ := insert_before_ok htwo
  have hsame : p₁.instr id = s.program.instr id :=
    hins.instr id (hins.ne_new (instr_lt_of_live (hp.sound.live_of_functionOf hid)))
  have hb₂ := parent_of_anchored hins' (hspares₁.functionOf not_false hid)
  have hbr := hins'.fitting_terminator hcall hb₂ hs.not_mem (hsame ▸ hterm) rfl rfl
    (hins.fits hp.sound (fits_draftBr (hall _ (mem_of_invokeDestinations? hdest))))
  have hspares₂ : Spares (fun _ => False) p₁ p₂ := hins'.spares hcall.sound
  have hnamed := hbr.takeName id call
  have hspares₃ : Spares (fun _ => False) p₂ (p₂.takeName id call) :=
    spares_takeName hbr.sound id call
  have hin : (p₂.takeName id call).functionOf? call = some c :=
    (hspares₂.trans hspares₃).functionOf not_false (hins.functionOf_new hb₁)
  have hold := (hspares₁.trans (hspares₂.trans hspares₃)).functionOf not_false hid
  have hturned := hnamed.turnUses hold hin (hins.not_mem_new hp).1
  have hspares := hspares₁.trans (hspares₂.trans (hspares₃.trans
    (spares_replaceUses hnamed.sound id (.instr call))))
  obtain ⟨hrefits, hfunc⟩ := hcut.refits
  obtain ⟨hq, hspares'⟩ := hrefits hturned
  exact .inr ⟨rfl, hs.advance hq (hspares.trans hspares')
    ((hfunc c).trans ((hins'.func c).trans (hins.func c)))⟩

theorem Scheduling.refl {id : InstrId} (h : Scheduling γ X c (id :: todo) s) :
    Advances γ X c todo s s :=
  ⟨⟨h.foldable, h.deletes, fun i hi => h.waiting i (List.mem_cons_of_mem _ hi),
    (List.nodup_cons.mp h.nodup).2⟩, .refl h.foldable.fitting.sound⟩

theorem offer_ok {r : Rule Unit} {id : InstrId} {captures : Captures} {accepted : Bool}
    (h : offer r id captures s = .ok accepted s') :
    accepted = false ∧ s' = s ∧ r.replacer = none ∨ ∃ f s₁, r.replacer = some f ∧
      f id captures s = .ok accepted s₁ ∧ (accepted = true ∧ s' = s₁ ∨ accepted = false ∧
        s' = { s₁ with scheduled := s₁.scheduled.take s.scheduled.length }) := by
  unfold Replacing.offer at h
  cases hf : r.replacer with
  | none =>
    rw [hf] at h
    obtain ⟨rfl, rfl⟩ := pure_ok h
    exact .inl ⟨rfl, rfl, rfl⟩
  | some f =>
    rw [hf] at h
    obtain ⟨_, _, hget, h⟩ := bind_ok h
    cases hget
    obtain ⟨answer, s₁, hrun, h⟩ := bind_ok h
    cases answer with
    | true =>
      cases h
      exact .inr ⟨f, _, rfl, hrun, .inl ⟨rfl, rfl⟩⟩
    | false =>
      cases h
      exact .inr ⟨f, s₁, rfl, hrun, .inr ⟨rfl, rfl⟩⟩

theorem offer_of_tame {r : Rule Unit} {id : InstrId} {captures : Captures} {accepted : Bool}
    {P : RuleState Unit → Prop}
    (hrun : ∀ f b s₁, r.replacer = some f → f id captures s = .ok b s₁ →
      b = false ∧ s₁ = s ∨ b = true ∧ P s₁)
    (h : offer r id captures s = .ok accepted s') :
    accepted = false ∧ s' = s ∧ (∀ f, r.replacer = some f → f id captures s = .ok false s) ∨
      accepted = true ∧ P s' := by
  rcases offer_ok h with ⟨rfl, rfl, hnone⟩ | ⟨f, s₁, hf, hone, hanswer⟩
  · exact .inl ⟨rfl, rfl, fun f hf => by rw [hnone] at hf; cases hf⟩
  · rcases hrun f accepted s₁ hf hone with ⟨rfl, rfl⟩ | ⟨rfl, hp⟩
    · obtain ⟨-, rfl⟩ := hanswer.resolve_left fun hno => Bool.false_ne_true hno.1
      refine .inl ⟨rfl, by rw [List.take_length], fun g hg => ?_⟩
      cases hf.symm.trans hg
      exact hone
    · obtain ⟨-, rfl⟩ := hanswer.resolve_right fun hno => Bool.false_ne_true hno.1.symm
      exact .inr ⟨rfl, hp⟩

theorem firstAccepting_cons {r : Rule Unit} {rules : List (Rule Unit)} {id : InstrId} {b : Bool}
    (h : firstAccepting id (r :: rules) s = .ok b s') :
    match? r s.program id = none ∧ firstAccepting id rules s = .ok b s' ∨
    ∃ captures, match? r s.program id = some captures ∧
      (offer r id captures s = .ok true s' ∧ b = true ∨
        ∃ s₁, offer r id captures s = .ok false s₁ ∧ firstAccepting id rules s₁ = .ok b s') := by
  unfold firstAccepting at h
  obtain ⟨_, _, hprogram, h⟩ := bind_ok h
  cases hprogram
  cases hmatch : match? r s.program id with
  | none =>
    rw [hmatch] at h
    exact .inl ⟨rfl, h⟩
  | some captures =>
    rw [hmatch] at h
    obtain ⟨accepted, s₁, hoffer, h⟩ := bind_ok h
    refine .inr ⟨captures, rfl, ?_⟩
    cases accepted with
    | true =>
      cases h
      exact .inl ⟨hoffer, rfl⟩
    | false => exact .inr ⟨s₁, hoffer, h⟩

theorem firstAccepting_advances {rules : List (Rule Unit)} (hrules : ∀ r ∈ rules, Handles γ X c r)
    {id : InstrId} {b : Bool} (hs : Scheduling γ X c (id :: todo) s)
    (h : firstAccepting id rules s = .ok b s') : Advances γ X c todo s s' := by
  induction rules with
  | nil =>
    obtain ⟨-, rfl⟩ := pure_ok h
    exact hs.refl
  | cons r rules ih =>
    have hrest : ∀ x ∈ rules, Handles γ X c x := fun x hx => hrules x (List.mem_cons_of_mem _ hx)
    rcases firstAccepting_cons h with ⟨-, h⟩ | ⟨captures, hmatch, h⟩
    · exact ih hrest h
    have hrun : ∀ f b s₁, r.replacer = some f → f id captures s = .ok b s₁ →
        b = false ∧ s₁ = s ∨ b = true ∧ Advances γ X c todo s s₁ := fun f b s₁ hf =>
      hrules r List.mem_cons_self hf hmatch hs
    rcases h with ⟨hoffer, -⟩ | ⟨s₁, hoffer, hnext⟩
    · exact ((offer_of_tame hrun hoffer).resolve_left fun hno => Bool.false_ne_true hno.1.symm).2
    · obtain ⟨-, hsame, -⟩ := (offer_of_tame hrun hoffer).resolve_right fun hno =>
        Bool.false_ne_true hno.1
      rw [hsame] at hnext
      exact ih hrest hnext

theorem applyAll_advances {rules : List (Rule Unit)} (hrules : ∀ r ∈ rules, Handles γ X c r)
    {ids : List InstrId} {u : PUnit} (hs : Scheduling γ X c ids s)
    (h : (ids.forM fun id => discard (applyFirst rules id)) s = .ok u s') :
    Advances γ X c [] s s' := by
  induction ids generalizing s with
  | nil =>
    obtain ⟨-, rfl⟩ := pure_ok h
    exact ⟨hs, .refl hs.foldable.fitting.sound⟩
  | cons id ids ih =>
    obtain ⟨_, s₁, happly, h⟩ := bind_ok h
    obtain ⟨b, happly⟩ := discard_ok happly
    have hone : Advances γ X c ids s s₁ := by
      unfold applyFirst at happly
      obtain ⟨_, _, hprogram, happly⟩ := bind_ok happly
      cases hprogram
      split at happly
      · obtain ⟨-, rfl⟩ := pure_ok happly
        exact hs.refl
      · exact firstAccepting_advances hrules hs happly
    obtain ⟨hall, hspares⟩ := ih hone.1 h
    exact ⟨hall, hone.2.trans hspares⟩

theorem handles_controlFlowRules (assumeNoExcept : Bool) :
    ∀ r ∈ controlFlowRules assumeNoExcept, Handles γ X c r := by
  intro r hr
  unfold controlFlowRules at hr
  rcases List.mem_cons.mp hr with rfl | hr
  · refine handles_settleBranch fun q hq => ?_
    simp only [List.mem_cons, List.not_mem_nil, or_false] at hq
    rcases hq with rfl | rfl | rfl <;> rfl
  · split at hr
    · rw [List.mem_singleton.mp hr]
      exact handles_invokeToCall
    · cases hr

end Replacing

/-! ## 6. Rounds -/

namespace Program

variable {γ : Layers} {X : List InstrId} {p q : Program} {c : FuncId}

theorem Foldable.scheduleAll {rules : List (Rule Unit)}
    (hrules : ∀ r ∈ rules, Replacing.Handles γ X c r) {rs : List Replacement}
    (h : Foldable γ X X c p) (hq : scheduleAll rules (p.instrsOf c) p = .ok rs q) :
    Foldable γ X (rs.map (·.old) ++ X) c q ∧ Spares (· = c) p q ∧
      ∀ r ∈ rs, r.new = none ∧ Inside c q r.old := by
  have hp := h.fitting.sound
  unfold QirProfile.scheduleAll at hq
  dsimp only at hq
  split at hq
  · rename_i s hall
    cases hq
    have hstart : Replacing.Scheduling γ X c (p.instrsOf c)
        { program := p, scheduled := [], extra := () } :=
      ⟨h, nofun, fun i hi => ⟨hp.mem_instrsOf.mp hi, nofun⟩, hp.nodup_instrsOf c⟩
    obtain ⟨hs, hspares⟩ := Replacing.applyAll_advances hrules hstart hall
    refine ⟨hs.foldable, hspares.mono hp fun _ _ => False.elim, fun r hr => ?_⟩
    obtain ⟨hnew, hin⟩ := hs.deletes r hr
    exact ⟨hnew, inside_of_functionOf hs.foldable.fitting.sound hin⟩
  · cases hq

theorem Foldable.controlFlowRounds {rules : List (Rule Unit)}
    (hrules : ∀ r ∈ rules, Replacing.Handles γ X c r) {fuel n : Nat} (h : Foldable γ X X c p)
    (hq : QirProfile.foldRounds rules c fuel p = .ok n q) :
    Foldable γ X X c q ∧ Spares (· = c) p q := by
  induction fuel generalizing p n with
  | zero =>
    obtain ⟨-, rfl⟩ := pure_ok hq
    exact ⟨h, .refl h.fitting.sound⟩
  | succ fuel ih =>
    unfold QirProfile.foldRounds at hq
    obtain ⟨folded, p₁, hfold, hq⟩ := bind_ok hq
    have hconstants : Foldable γ X X c p₁ ∧ Spares (· = c) p p₁ := by
      have hmake := compileEdit_ok.mp hfold
      unfold Edit.tryMake at hmake
      split at hmake
      · rename_i hfold
        cases hmake
        exact h.foldRounds hfold
      · cases hmake
    obtain ⟨_, _, hget, hq⟩ := bind_ok hq
    cases hget
    obtain ⟨rs, p₂, hschedule, hq⟩ := bind_ok hq
    obtain ⟨hscheduled, hspares₂, hrs⟩ := hconstants.1.scheduleAll hrules hschedule
    have hspares := hconstants.2.trans hspares₂
    split at hq
    · rename_i hnone
      obtain ⟨-, rfl⟩ := pure_ok hq
      obtain rfl := List.isEmpty_iff.mp hnone
      exact ⟨hscheduled, hspares⟩
    · obtain ⟨removed, p₃, hcarry, hq⟩ := bind_ok hq
      obtain ⟨hremoved, hspares₃⟩ := hscheduled.carryOut hrs hcarry
      obtain ⟨m, p₄, hrounds, hq⟩ := bind_ok hq
      obtain ⟨-, rfl⟩ := pure_ok hq
      obtain ⟨hall, hspares₄⟩ := ih hremoved hrounds
      exact ⟨hall, hspares.trans (hspares₃.trans hspares₄)⟩

/-- Folding keeps a function foldable and leaves all others alone. -/
theorem Foldable.foldControlFlow {assumeNoExcept : Bool} {n : Nat} (h : Foldable γ X X c p)
    (hq : foldControlFlow (Replacing.controlFlowRules assumeNoExcept) c p = .ok n q) :
    Foldable γ X X c q ∧ Spares (· = c) p q := by
  unfold QirProfile.foldControlFlow at hq
  obtain ⟨_, _, hget, hq⟩ := bind_ok hq
  cases hget
  exact h.controlFlowRounds (Replacing.handles_controlFlowRules assumeNoExcept) hq

end Program

end QirProfile
