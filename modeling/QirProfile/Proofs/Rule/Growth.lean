import Mathlib.Data.List.Forall2
import Mathlib.Logic.Function.Basic
import QirProfile.Proofs.Program.Readings
import QirProfile.Proofs.Rule.Pending

/-!
# What a program grows into while rules are tried

Rules turn the uses of an instruction to a new one and put new instructions beside it; nothing goes
before the schedule is carried out. `Grown p T q` says that `q` has come from `p` in this way, and the
traces `T` tell what is referred to in the place of each instruction and what stands around it.
-/

namespace QirProfile

namespace Value

/-! ## 1. Operands -/

/-- Whether other values stand inside this one. -/
def hasParts : Value → Bool
  | array _ _ | struct _ _ | cast _ _ _ | gep _ _ _ _ _ => true
  | _ => false

/-- What has become of an operand when uses of instructions have been turned. What stands inside a
    constant is left open. -/
inductive Turned (t : InstrId → InstrId) : Value → Value → Prop where
  | instr (x : InstrId) : Turned t (.instr x) (.instr (t x))
  | same {v : Value} (h : v.toInstr? = none) : Turned t v v
  | inside {v w : Value} (hv : v.hasParts = true) (hw : w.hasParts = true) : Turned t v w

theorem turned_refl (v : Value) : Turned (fun x => x) v v := by
  cases v
  case instr x => exact .instr x
  all_goals exact .same rfl

theorem hasParts_substitute {v : Value} (h : v.hasParts = true) (id new : InstrId) :
    (substitute (.instr id) (.instr new) v).hasParts = true := by
  cases v <;> cases h <;>
    · unfold substitute
      rw [if_neg nofun]
      rfl

theorem Turned.substitute {t : InstrId → InstrId} {v w : Value} {id : InstrId} (h : Turned t v w)
    (hid : t id = id) (hne : ∀ x, x ≠ id → t x ≠ id) (new : InstrId) :
    Turned (Function.update t id new) v (substitute (.instr id) (.instr new) w) := by
  cases h with
  | instr x =>
    by_cases hx : x = id
    · subst hx
      rw [hid]
      have hnew : Value.substitute (.instr x) (.instr new) (.instr x) = .instr new := by
        unfold Value.substitute
        rw [if_pos rfl]
      rw [hnew]
      have hturned := Turned.instr (t := Function.update t x new) x
      rwa [Function.update_self] at hturned
    · have hsame : Value.substitute (.instr id) (.instr new) (.instr (t x)) = .instr (t x) := by
        unfold Value.substitute
        exact if_neg fun he => hne x hx (Value.instr.inj he)
      rw [hsame]
      have hturned := Turned.instr (t := Function.update t id new) x
      rwa [Function.update_of_ne hx] at hturned
  | same hv =>
    cases v
    case instr => cases hv
    case array | struct | cast | gep => exact .inside rfl (hasParts_substitute rfl id new)
    all_goals
      unfold Value.substitute
      rw [if_neg nofun]
      exact .same rfl
  | inside hv hw => exact .inside hv (hasParts_substitute hw id new)

end Value

namespace Program

open Value (Turned)

/-! ## 2. Traces -/

/-- What has become of the instructions of a program. -/
structure Traces where
  /-- What is referred to in the place of an instruction. -/
  turned : InstrId → InstrId := fun i => i
  /-- What has been put before an instruction, and behind it. -/
  front : InstrId → List InstrId := fun _ => []
  back : InstrId → List InstrId := fun _ => []

namespace Traces

/-- What stands at the place of an instruction. -/
def place (T : Traces) (i : InstrId) : List InstrId := T.front i ++ i :: T.back i

/-- A new instruction has been put right before another one. -/
def putBefore (T : Traces) (id new : InstrId) : Traces :=
  { T with front := Function.update T.front id (T.front id ++ [new]) }

/-- A new instruction has been put right behind another one. -/
def putAfter (T : Traces) (id new : InstrId) : Traces :=
  { T with back := Function.update T.back id (new :: T.back id) }

/-- The uses of an instruction have been turned to another one. -/
def turn (T : Traces) (id new : InstrId) : Traces :=
  { T with turned := Function.update T.turned id new }

/-- The traces differ at most at one instruction. -/
def Elsewhere (T T' : Traces) (id : InstrId) : Prop :=
  ∀ i, i ≠ id → T'.turned i = T.turned i ∧ T'.front i = T.front i ∧ T'.back i = T.back i

theorem Elsewhere.refl (T : Traces) (id : InstrId) : T.Elsewhere T id :=
  fun _ _ => ⟨rfl, rfl, rfl⟩

theorem Elsewhere.trans {T T' T'' : Traces} {id : InstrId} (h₁ : T.Elsewhere T' id)
    (h₂ : T'.Elsewhere T'' id) : T.Elsewhere T'' id := by
  intro i hi
  obtain ⟨ht, hf, hb⟩ := h₁ i hi
  obtain ⟨ht', hf', hb'⟩ := h₂ i hi
  exact ⟨ht'.trans ht, hf'.trans hf, hb'.trans hb⟩

theorem elsewhere_putBefore (T : Traces) (id new : InstrId) :
    T.Elsewhere (T.putBefore id new) id :=
  fun _ hi => ⟨rfl, Function.update_of_ne hi _ _, rfl⟩

theorem elsewhere_putAfter (T : Traces) (id new : InstrId) : T.Elsewhere (T.putAfter id new) id :=
  fun _ hi => ⟨rfl, rfl, Function.update_of_ne hi _ _⟩

theorem elsewhere_turn (T : Traces) (id new : InstrId) : T.Elsewhere (T.turn id new) id :=
  fun _ hi => ⟨Function.update_of_ne hi _ _, rfl, rfl⟩

theorem flatMap_place (T : Traces) (front back : List InstrId) (id : InstrId) :
    (front ++ id :: back).flatMap T.place =
      (front.flatMap T.place ++ T.front id) ++ id :: (T.back id ++ back.flatMap T.place) := by
  simp [place, List.flatMap_append, List.flatMap_cons]

theorem Elsewhere.flatMap {T T' : Traces} {id : InstrId} (h : T.Elsewhere T' id)
    {ids : List InstrId} (hids : id ∉ ids) : ids.flatMap T'.place = ids.flatMap T.place := by
  refine List.flatMap_congr fun i hi => ?_
  obtain ⟨-, hf, hb⟩ := h i fun he => hids (he ▸ hi)
  rw [place, place, hf, hb]

end Traces

/-! ## 3. Grown programs -/

/-- The functions that rules put calls of into a program. -/
def insertedCalls : List String :=
  ["__quantum__qis__mz__body", "__quantum__qis__read_result__body"]

/-- Uses have been turned and instructions have been put in as the traces say, and nothing has
    gone. -/
structure Grown (p : Program) (T : Traces) (q : Program) : Prop where
  base : p.Sound
  sound : q.Sound
  instrs : p.instrs.size ≤ q.instrs.size
  functions : p.functions.size ≤ q.functions.size
  func : ∀ k : FuncId, k.index < p.functions.size → q.func k = p.func k
  block : ∀ b, (q.block b).parent = (p.block b).parent ∧ (q.block b).erased = (p.block b).erased
  listed : ∀ b, (q.block b).instrs = (p.block b).instrs.flatMap T.place
  instr : ∀ i : InstrId, i.index < p.instrs.size → (q.instr i).kind = (p.instr i).kind ∧
    (q.instr i).ty = (p.instr i).ty ∧ (q.instr i).parent = (p.instr i).parent ∧
    (q.instr i).erased = (p.instr i).erased
  operands : ∀ i : InstrId, i.index < p.instrs.size → (p.instr i).erased = false →
    List.Forall₂ (Turned T.turned) (p.instr i).operands (q.instr i).operands
  reading : ∀ i : InstrId, i.index < p.instrs.size → Instr.SameReading (p.instr i) (q.instr i)
  new : ∀ (i : InstrId) (k : FuncId), p.instrs.size ≤ i.index →
    (q.instr i).calledFunction? = some k → (q.func k).name ∈ insertedCalls
  old : ∀ i, T.turned i = i ∨ p.instrs.size ≤ (T.turned i).index

variable {p q q₀ : Program} {T T' : Traces} {id : InstrId} {b : BlockId}

theorem Grown.start (hp : p.Sound) : Grown p {} p where
  base := hp
  sound := hp
  instrs := Nat.le_refl _
  functions := Nat.le_refl _
  func _ _ := rfl
  block _ := ⟨rfl, rfl⟩
  listed b := (List.flatMap_singleton' _).symm
  instr _ _ := ⟨rfl, rfl, rfl, rfl⟩
  operands i _ _ := List.forall₂_same.mpr fun v _ => Value.turned_refl v
  reading i _ := .refl _
  new i k hi hk := by
    rw [instr_of_le hi] at hk
    cases hk
  old _ := .inl rfl

/-- A visit of an instruction has come from the program `q₀` with the traces `T` to `q` and `T'`. -/
structure Underway (p : Program) (T : Traces) (id : InstrId) (q₀ : Program) (T' : Traces)
    (q : Program) : Prop extends Grown p T' q where
  elsewhere : T.Elsewhere T' id
  grown : q₀.instrs.size ≤ q.instrs.size
  called : q₀.functions.size ≤ q.functions.size
  known : ∀ k : FuncId, k.index < q₀.functions.size → q.func k = q₀.func k
  kept : ∀ i : InstrId, i.index < q₀.instrs.size → (q.instr i).kind = (q₀.instr i).kind ∧
    (q.instr i).erased = (q₀.instr i).erased ∧
    (q.instr i).calledFunction? = (q₀.instr i).calledFunction?
  unchanged : ∀ i : InstrId, i.index < q₀.instrs.size → i ≠ id →
    (q₀.instr i).uses (.instr id) = false → q.instr i = q₀.instr i
  named : ∀ i : InstrId, i.index < q₀.instrs.size → i ≠ id → (q.instr i).name = (q₀.instr i).name

theorem Underway.start (h : Grown p T q) (id : InstrId) : Underway p T id q T q where
  toGrown := h
  elsewhere := .refl T id
  grown := Nat.le_refl _
  called := Nat.le_refl _
  known _ _ := rfl
  kept _ _ := ⟨rfl, rfl, rfl⟩
  unchanged _ _ _ _ := rfl
  named _ _ _ := rfl

/-! ## 4. New nodes -/

theorem Underway.create (h : Underway p T id q₀ T' q) (kind : InstrKind) (ty : Ty)
    (operands : List Value) (hcall : kind.isTerminator = false ∧ ∀ marker, kind ≠ .call marker) :
    Underway p T id q₀ T' (q.createInstr kind ty operands).1 := by
  have hnew := instr_createInstr_new q kind ty operands
  have hold : ∀ i : InstrId, i.index < q.instrs.size →
      (q.createInstr kind ty operands).1.instr i = q.instr i :=
    fun i hi => instr_createInstr_ne kind ty operands (ne_fresh hi)
  have hsize : (q.createInstr kind ty operands).1.instrs.size = q.instrs.size + 1 := by
    simp [createInstr]
  refine ⟨⟨h.base, (evolves_createInstr q kind ty operands h.sound).1, ?_, h.functions, h.func, h.block,
    h.listed, fun i hi => ?_, fun i hi => ?_, fun i hi => ?_, fun i k hi hk => ?_, h.old⟩,
    h.elsewhere, ?_, h.called, h.known, fun i hi => ?_, fun i hi => ?_, fun i hi => ?_⟩
  · exact hsize ▸ Nat.le_succ_of_le h.instrs
  · rw [hold i (Nat.lt_of_lt_of_le hi h.instrs)]
    exact h.instr i hi
  · rw [hold i (Nat.lt_of_lt_of_le hi h.instrs)]
    exact h.operands i hi
  · rw [hold i (Nat.lt_of_lt_of_le hi h.instrs)]
    exact h.reading i hi
  · by_cases hne : i = ⟨q.instrs.size⟩
    · subst hne
      rw [hnew] at hk
      have hreplaceable : kind.isTerminator = true ∨ ∃ marker, kind = .call marker := by
        unfold Instr.calledFunction? Instr.callee? Instr.isCall Instr.isInvoke at hk
        cases kind <;> first | exact .inl rfl | exact .inr ⟨_, rfl⟩ | cases hk
      rcases hreplaceable with hterm | ⟨marker, hmarker⟩
      · rw [hcall.1] at hterm
        cases hterm
      · exact absurd hmarker (hcall.2 marker)
    · rw [instr_createInstr_ne kind ty operands hne] at hk
      exact h.new i k hi hk
  · exact hsize ▸ Nat.le_succ_of_le h.grown
  · rw [hold i (Nat.lt_of_lt_of_le hi h.grown)]
    exact h.kept i hi
  · rw [hold i (Nat.lt_of_lt_of_le hi h.grown)]
    exact h.unchanged i hi
  · rw [hold i (Nat.lt_of_lt_of_le hi h.grown)]
    exact h.named i hi

theorem Underway.declare (h : Underway p T id q₀ T' q) (name : String) (sig : Signature) :
    Underway p T id q₀ T' (q.ensureFunction name sig).1 ∧
      ((q.ensureFunction name sig).1.func (q.ensureFunction name sig).2).name = name ∧
      (q.ensureFunction name sig).1.instrs = q.instrs := by
  have hsound := (evolves_ensureFunction q name sig h.sound).1
  unfold ensureFunction at hsound ⊢
  cases hfound : q.findFunction? name with
  | some f => exact ⟨h, (findFunction?_some hfound).2, rfl⟩
  | none =>
    rw [hfound] at hsound
    have hpush : ∀ k, (q.pushFunction (Func.declare name sig [])).1.func k =
        if k.index = q.functions.size then Func.declare name sig [] else q.func k :=
      fun k => func_push q _ k
    have hold : ∀ k : FuncId, k.index < q.functions.size →
        (q.pushFunction (Func.declare name sig [])).1.func k = q.func k :=
      fun k hk => (hpush k).trans (if_neg (Nat.ne_of_lt hk))
    have hsize : (q.pushFunction (Func.declare name sig [])).1.functions.size =
        q.functions.size + 1 := by
      simp [pushFunction]
    refine ⟨⟨⟨h.base, hsound, h.instrs, ?_, fun k hk => ?_, h.block, h.listed, h.instr, h.operands,
      h.reading, fun i k hi hk => ?_, h.old⟩, h.elsewhere, h.grown, ?_, fun k hk => ?_, h.kept,
      h.unchanged, h.named⟩, ?_, rfl⟩
    · exact hsize ▸ Nat.le_succ_of_le h.functions
    · exact (hold k (Nat.lt_of_lt_of_le hk h.functions)).trans (h.func k hk)
    · have hname := h.new i k hi hk
      rw [hold k]
      · exact hname
      · by_contra hge
        rw [func_of_le (Nat.not_lt.mp hge)] at hname
        exact absurd hname (by decide)
    · exact hsize ▸ Nat.le_succ_of_le h.called
    · exact (hold k (Nat.lt_of_lt_of_le hk h.called)).trans (h.known k hk)
    · exact congrArg Func.name ((hpush ⟨q.functions.size⟩).trans (if_pos rfl))

/-! ## 5. Instructions that are put in -/

theorem insert_beside_ok (hq : q.Sound) {place : Place} {anchor : InstrId} {around : List InstrId}
    (d : Edit.Draft) (hanchor : (q.instr anchor).parent = some b)
    (hplace : place = .before anchor ∧ around = [⟨q.instrs.size⟩, anchor] ∨
      place = .after anchor ∧ around = [anchor, ⟨q.instrs.size⟩]) :
    ∃ r front back l m, Edit.insert place d q = .ok ⟨q.instrs.size⟩ r ∧
      Placed (q.drafted d) r anchor ⟨q.instrs.size⟩ b front back ∧
      (q.block b).instrs = l ++ anchor :: m ∧ (r.block b).instrs = l ++ (around ++ m) ∧
      r.functions = q.functions ∧ ∀ c, (r.block c).erased = (q.block c).erased := by
  have hdrafted := (evolves_drafted q d hq).1
  have hparent : ((q.drafted d).instr anchor).parent = some b := by
    rw [instr_drafted_ne d (ne_fresh (instr_lt_of_parent hanchor))]
    exact hanchor
  have hmem : anchor ∈ ((q.drafted d).block b).instrs := hdrafted.mem_instrs.mpr hparent
  obtain ⟨n, hn⟩ := Option.isSome_iff_exists.mp (List.isSome_idxOf?.mpr hmem)
  have hbeside : ∀ offset, (q.drafted d).insertBeside anchor ⟨q.instrs.size⟩ offset =
      .ok ((q.drafted d).attach b ⟨q.instrs.size⟩ (·.insertIdx (n + offset) ⟨q.instrs.size⟩)) := by
    intro offset
    refine insertBeside_ok.mpr ⟨?_, b, n, positionOf_ok.mpr
      ⟨hdrafted.instr_live hmem, hparent, hn⟩, rfl⟩
    rw [instr_drafted_new]
    exact ⟨rfl, rfl⟩
  have hlisted : ∀ offset, (((q.drafted d).attach b ⟨q.instrs.size⟩
      (·.insertIdx (n + offset) ⟨q.instrs.size⟩)).block b).instrs =
        (q.block b).instrs.insertIdx (n + offset) ⟨q.instrs.size⟩ := by
    intro offset
    rw [attach, block_updateInstr, block_updateBlock_self (block_lt_of_mem hmem)]
    rfl
  have herased : ∀ offset c, (((q.drafted d).attach b ⟨q.instrs.size⟩
      (·.insertIdx (n + offset) ⟨q.instrs.size⟩)).block c).erased = (q.block c).erased := by
    intro offset c
    rw [attach, block_updateInstr]
    by_cases hc : b = c
    · rw [← hc, block_updateBlock_self (block_lt_of_mem hmem)]
      rfl
    · rw [block_updateBlock_ne hc]
      rfl
  obtain ⟨l, m, hl, hbefore, hafter⟩ := insertIdx_idxOf? hn ⟨q.instrs.size⟩
  rcases hplace with ⟨rfl, rfl⟩ | ⟨rfl, rfl⟩
  · obtain ⟨c, front, back, hplaced⟩ := insertBeside_placed hdrafted (Nat.zero_le 1) (hbeside 0)
    obtain rfl : b = c := Option.some.inj (hparent.symm.trans hplaced.anchored)
    have hattempt : Edit.attempt (·.insertBefore anchor ⟨q.instrs.size⟩) (q.drafted d) = .ok () _ :=
      attempt_ok.mpr (hbeside 0)
    have hinsert : Edit.insertMoving (.before anchor) d.kind d.ty d.operands d.name q = .ok _ _ :=
      bind_of_ok (x := Edit.attempt (·.insertBefore anchor ⟨q.instrs.size⟩)) hattempt _
    exact ⟨_, front, back, l, m, bind_of_ok hinsert _, hplaced, hl, (hlisted 0).trans hbefore,
      rfl, herased 0⟩
  · obtain ⟨c, front, back, hplaced⟩ := insertBeside_placed hdrafted (Nat.le_refl 1) (hbeside 1)
    obtain rfl : b = c := Option.some.inj (hparent.symm.trans hplaced.anchored)
    have hattempt : Edit.attempt (·.insertAfter anchor ⟨q.instrs.size⟩) (q.drafted d) = .ok () _ :=
      attempt_ok.mpr (hbeside 1)
    have hinsert : Edit.insertMoving (.after anchor) d.kind d.ty d.operands d.name q = .ok _ _ :=
      bind_of_ok (x := Edit.attempt (·.insertAfter anchor ⟨q.instrs.size⟩)) hattempt _
    exact ⟨_, front, back, l, m, bind_of_ok hinsert _, hplaced, hl, (hlisted 1).trans hafter,
      rfl, herased 1⟩

theorem Grown.split (h : Grown p T q) (hid : id ∈ (p.block b).instrs) {l m : List InstrId}
    (hl : (q.block b).instrs = l ++ id :: m) : ∃ front back, (p.block b).instrs = front ++ id :: back ∧
      id ∉ front ∧ id ∉ back ∧ l = front.flatMap T.place ++ T.front id ∧
      m = T.back id ++ back.flatMap T.place := by
  obtain ⟨front, back, hsplit⟩ := List.append_of_mem hid
  have hnodup := h.base.nodup_instrs b
  rw [hsplit] at hnodup
  have hother := (List.nodup_cons.mp (List.nodup_middle.mp hnodup)).1
  have hlisted := h.listed b
  rw [hsplit, Traces.flatMap_place] at hlisted
  have honce := h.sound.nodup_instrs b
  rw [hlisted] at honce
  have hrest := (List.nodup_cons.mp (List.nodup_middle.mp honce)).1
  rw [hl] at hlisted
  refine ⟨front, back, hsplit, fun hmem => hother (List.mem_append_left _ hmem),
    fun hmem => hother (List.mem_append_right _ hmem), ?_⟩
  obtain ⟨hfront, -, hback⟩ := (List.append_cons_inj_of_notMem
    (fun hmem => hrest (List.mem_append_left _ hmem))
    (fun hmem => hrest (List.mem_append_right _ hmem))).mp hlisted.symm
  exact ⟨hfront.symm, hback.symm⟩

theorem Underway.insert {place : Place} {around : List InstrId} {T'' : Traces}
    (h : Underway p T id q₀ T' q) (hid : id ∈ (p.block b).instrs) (d : Edit.Draft)
    (hcall : ∀ k, (⟨d.kind, d.ty, d.operands, d.name, some b, false⟩ : Instr).calledFunction? =
      some k → (q.func k).name ∈ insertedCalls)
    (hplace : place = .before id ∧ around = [⟨q.instrs.size⟩, id] ∨
      place = .after id ∧ around = [id, ⟨q.instrs.size⟩])
    (helsewhere : T'.Elsewhere T'' id) (hturned : T''.turned = T'.turned)
    (haround : T''.place id = T'.front id ++ (around ++ T'.back id)) :
    ∃ r, Edit.insert place d q = .ok ⟨q.instrs.size⟩ r ∧ Underway p T id q₀ T'' r ∧
      r.instr ⟨q.instrs.size⟩ = ⟨d.kind, d.ty, d.operands, d.name, some b, false⟩ ∧
      (∀ i, i ≠ ⟨q.instrs.size⟩ → r.instr i = q.instr i) ∧
      r.instrs.size = q.instrs.size + 1 ∧ r.functions = q.functions := by
  have hparent : (q.instr id).parent = some b := by
    rw [(h.instr id (instr_lt_of_live (h.base.instr_live hid))).2.2.1]
    exact h.base.mem_instrs.mp hid
  obtain ⟨r, _, _, l, m, hr, hplaced, hl, hlist, hfunctions, herased⟩ :=
    insert_beside_ok h.sound d hparent hplace
  have hfunc : ∀ k, r.func k = q.func k := fun k => by rw [func, hfunctions, func]
  have hsize : r.instrs.size = q.instrs.size + 1 := by
    rw [hplaced.size]
    simp [drafted, createInstr, setInstrName, updateInstr]
  have hold : ∀ i : InstrId, i.index < q.instrs.size → r.instr i = q.instr i := fun i hi =>
    (hplaced.instr i (ne_fresh hi)).trans (instr_drafted_ne d (ne_fresh hi))
  have hmade : r.instr ⟨q.instrs.size⟩ = ⟨d.kind, d.ty, d.operands, d.name, some b, false⟩ := by
    rw [hplaced.made, instr_drafted_new]
  have hlisted : ∀ c, (r.block c).instrs = (p.block c).instrs.flatMap T''.place := by
    intro c
    by_cases hc : c = b
    · subst hc
      obtain ⟨front, back, hsplit, hfront, hback, rfl, rfl⟩ := h.split hid hl
      rw [hlist, hsplit, List.flatMap_append, List.flatMap_cons, haround, helsewhere.flatMap hfront,
        helsewhere.flatMap hback]
      simp
    · rw [hplaced.others c hc]
      refine (h.listed c).trans (helsewhere.flatMap fun hmem => hc ?_).symm
      exact Option.some.inj ((h.base.mem_instrs.mp hmem).symm.trans (h.base.mem_instrs.mp hid))
  refine ⟨r, hr, ⟨⟨h.base, hplaced.sound, ?_, ?_, fun k hk => (hfunc k).trans (h.func k hk),
    fun c => ⟨(hplaced.parent c).trans (h.block c).1, (herased c).trans (h.block c).2⟩, hlisted,
    fun i hi => ?_, fun i hi => ?_, fun i hi => ?_, fun i k hi hk => ?_, hturned ▸ h.old⟩,
    h.elsewhere.trans helsewhere, ?_, ?_, fun k hk => (hfunc k).trans (h.known k hk),
    fun i hi => ?_, fun i hi => ?_, fun i hi => ?_⟩, hmade,
    fun i hi => (hplaced.instr i hi).trans (instr_drafted_ne d hi), hsize, hfunctions⟩
  · exact hsize ▸ Nat.le_succ_of_le h.instrs
  · exact hfunctions ▸ h.functions
  · rw [hold i (Nat.lt_of_lt_of_le hi h.instrs)]
    exact h.instr i hi
  · rw [hold i (Nat.lt_of_lt_of_le hi h.instrs), hturned]
    exact h.operands i hi
  · rw [hold i (Nat.lt_of_lt_of_le hi h.instrs)]
    exact h.reading i hi
  · rw [hfunc]
    by_cases hne : i = ⟨q.instrs.size⟩
    · subst hne
      rw [hmade] at hk
      exact hcall k hk
    · rw [hplaced.instr i hne, instr_drafted_ne d hne] at hk
      exact h.new i k hi hk
  · exact hsize ▸ Nat.le_succ_of_le h.grown
  · exact hfunctions ▸ h.called
  · rw [hold i (Nat.lt_of_lt_of_le hi h.grown)]
    exact h.kept i hi
  · rw [hold i (Nat.lt_of_lt_of_le hi h.grown)]
    exact h.unchanged i hi
  · rw [hold i (Nat.lt_of_lt_of_le hi h.grown)]
    exact h.named i hi

/-! ## 6. Uses and names -/

theorem Underway.rework {r : Program} {T'' : Traces} (h : Underway p T id q₀ T' q)
    (hs : q.SameFrame r) (hfunc : ∀ k, r.func k = q.func k) (helsewhere : T'.Elsewhere T'' id)
    (hplace : ∀ i, T''.place i = T'.place i)
    (hold : T''.turned id = id ∨ p.instrs.size ≤ (T''.turned id).index)
    (hinstr : ∀ i, (r.instr i).kind = (q.instr i).kind ∧ (r.instr i).ty = (q.instr i).ty ∧
      Instr.SameReading (q.instr i) (r.instr i))
    (hoperands : ∀ i : InstrId, i.index < p.instrs.size → (q.instr i).erased = false →
      List.Forall₂ (Turned T'.turned) (p.instr i).operands (q.instr i).operands →
      List.Forall₂ (Turned T''.turned) (p.instr i).operands (r.instr i).operands)
    (hsame : ∀ i : InstrId, i.index < q₀.instrs.size → i ≠ id →
      (r.instr i).name = (q.instr i).name ∧
        ((q.instr i).uses (.instr id) = false → r.instr i = q.instr i)) :
    Underway p T id q₀ T'' r := by
  refine ⟨⟨h.base, (hs.evolves h.sound).1, hs.instrs ▸ h.instrs, hs.functions ▸ h.functions,
    fun k hk => (hfunc k).trans (h.func k hk), fun c => ?_, fun c => ?_, fun i hi => ?_,
    fun i hi hlive => ?_, fun i hi => (h.reading i hi).trans (hinstr i).2.2, fun i k hi hk => ?_,
    fun i => ?_⟩, h.elsewhere.trans helsewhere, hs.instrs ▸ h.grown, hs.functions ▸ h.called,
    fun k hk => (hfunc k).trans (h.known k hk), fun i hi => ?_, fun i hi hne huses => ?_,
    fun i hi hne => (hsame i hi hne).1.trans (h.named i hi hne)⟩
  · exact ⟨(hs.block c).1.trans (h.block c).1, (hs.block c).2.2.trans (h.block c).2⟩
  · rw [(hs.block c).2.1, h.listed c]
    exact List.flatMap_congr fun i _ => (hplace i).symm
  · obtain ⟨hkind, hty, hparent, herased⟩ := h.instr i hi
    exact ⟨(hinstr i).1.trans hkind, (hinstr i).2.1.trans hty, (hs.instr i).1.trans hparent,
      (hs.instr i).2.trans herased⟩
  · exact hoperands i hi ((h.instr i hi).2.2.2.trans hlive) (h.operands i hi hlive)
  · rw [(hinstr i).2.2.callee] at hk
    rw [hfunc]
    exact h.new i k hi hk
  · by_cases hi : i = id
    · exact hi ▸ hold
    · rw [(helsewhere i hi).1]
      exact h.old i
  · obtain ⟨hkind, herased, hcalled⟩ := h.kept i hi
    exact ⟨(hinstr i).1.trans hkind, (hs.instr i).2.trans herased,
      (hinstr i).2.2.callee.trans hcalled⟩
  · have hbefore := h.unchanged i hi hne huses
    rw [(hsame i hi hne).2 (hbefore ▸ huses), hbefore]

/-- Uses are turned to an instruction that is new. -/
theorem Underway.turn (h : Underway p T id q₀ T' q) (hid : id.index < p.instrs.size)
    (hturned : T'.turned id = id) (new : InstrId) (hnew : p.instrs.size ≤ new.index) :
    Underway p T id q₀ (T'.turn id new) (q.replaceUses (.instr id) (.instr new)) := by
  have hne : ∀ x, x ≠ id → T'.turned x ≠ id := by
    intro x hx he
    rcases h.old x with hsame | hge
    · exact hx (hsame.symm.trans he)
    · rw [he] at hge
      exact Nat.not_le.mpr hid hge
  refine h.rework (sameFrame_replaceUses q _ _) (fun _ => rfl) (Traces.elsewhere_turn T' id new)
    (fun _ => rfl) (.inr ?_) (fun i => ?_) (fun i hi hlive hforall => ?_) fun i hi hne => ⟨?_, ?_⟩
  · rw [show (T'.turn id new).turned id = new from Function.update_self ..]
    exact hnew
  · rw [instr_replaceUses]
    split
    · exact ⟨rfl, rfl, .substitute rfl rfl (.inr ⟨rfl, rfl⟩)⟩
    · exact ⟨rfl, rfl, .refl _⟩
  · rw [instr_replaceUses_live hlive, List.forall₂_map_right_iff]
    exact hforall.imp fun _ _ hv => hv.substitute hturned hne new
  · rw [instr_replaceUses]
    split <;> rfl
  · intro huses
    rw [instr_replaceUses, huses, Bool.and_false, if_neg Bool.false_ne_true]

theorem Underway.takeName (h : Underway p T id q₀ T' q) {answer : InstrId}
    (hanswer : q₀.instrs.size ≤ answer.index) :
    Underway p T id q₀ T' (q.takeName id answer) := by
  have hnames : ∀ i, ∃ n, (q.takeName id answer).instr i = { q.instr i with name := n } :=
    instr_takeName q id answer
  have hsame : ∀ i : InstrId, i.index < q₀.instrs.size → i ≠ id →
      (q.takeName id answer).instr i = q.instr i := by
    intro i hi hne
    have hother : answer ≠ i := by
      rintro rfl
      exact Nat.not_le.mpr hi hanswer
    rw [Program.takeName, setInstrName, setInstrName, instr_updateInstr_ne hother,
      instr_updateInstr_ne hne.symm]
  refine h.rework (sameFrame_takeName q id answer) (fun _ => rfl) (.refl T' id) (fun _ => rfl)
    (h.old id) (fun i => ?_) (fun i _ _ hforall => ?_)
    fun i hi hne => ⟨by rw [hsame i hi hne], fun _ => hsame i hi hne⟩
  · obtain ⟨n, hn⟩ := hnames i
    rw [hn]
    exact ⟨rfl, rfl, .of_eq rfl rfl⟩
  · obtain ⟨n, hn⟩ := hnames i
    rw [hn]
    exact hforall

end Program

end QirProfile
