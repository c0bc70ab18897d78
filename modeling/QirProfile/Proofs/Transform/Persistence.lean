import QirProfile.Proofs.Tweaks
import QirProfile.Proofs.Transform.Bodies
import QirProfile.Proofs.Transform.DeadCode
import QirProfile.Proofs.Transform.Expand
import QirProfile.Proofs.Transform.QubitAddresses

/-!
# What calls keep before the rules are tried

The phases before the rules put values in the place of instructions and take dead code away. But no
call gives way to a value other than the undefined one, and no declared function goes. So a call still
calls the declared function that it called, and of the results of other calls that it was given some
may be undefined by now, but none is another one.
-/

namespace QirProfile

variable {k f c : FuncId} {i : InstrId} {n : Nat} {s : TransformSettings}

/-- Whether an instruction calls something. -/
def Instr.calls (i : Instr) : Bool := i.isCall || i.isInvoke

theorem Instr.calledFunction?_iff {i : Instr} :
    i.calledFunction? = some k ↔ i.calls = true ∧ i.operands.getLast? = some (.func k) := by
  rw [calledFunction?, callee?, calls]
  by_cases hcalls : (i.isCall || i.isInvoke) = true
  · rw [if_pos hcalls]
    simp only [hcalls, true_and, Option.bind_eq_some_iff]
    constructor
    · rintro ⟨v, hv, hto⟩
      cases v <;> cases hto
      exact hv
    · exact fun hv => ⟨_, hv, rfl⟩
  · rw [if_neg hcalls]
    simp [hcalls]

namespace Program

variable {p q r : Program}

/-! ## 1. What persists -/

/-- What may become of an operand of a call: the result of a call stays or is undefined, and a declared
    function stays. -/
structure Lasts (p : Program) (v w : Value) : Prop where
  result : ∀ i, v = .instr i → (p.instr i).isCall = true → w = v ∨ ∃ ty, w = .undef ty
  declared : ∀ k, v = .func k → (p.func k).isDeclaration = true → w = v

theorem Lasts.refl (p : Program) (v : Value) : p.Lasts v v := ⟨fun _ _ _ => .inl rfl, fun _ _ _ => rfl⟩

theorem Lasts.substitute {old new v w : Value} (h : p.Lasts v w) (hundef : ∀ ty, old ≠ .undef ty)
    (hresult : ∀ i, old = .instr i → (p.instr i).isCall = true → ∃ ty, new = .undef ty)
    (hdeclared : ∀ k, old = .func k → (p.func k).isDeclaration = false) :
    p.Lasts v (Value.substitute old new w) where
  result i hv hcall := by
    subst hv
    rcases h.result i rfl hcall with rfl | ⟨ty, rfl⟩
    · by_cases heq : old = .instr i
      · obtain ⟨ty, rfl⟩ := hresult i heq hcall
        subst heq
        exact .inr ⟨ty, by simp [Value.substitute]⟩
      · exact .inl (by simp [Value.substitute, Ne.symm heq])
    · exact .inr ⟨ty, by simp [Value.substitute, Ne.symm (hundef ty)]⟩
  declared k hv hdecl := by
    subst hv
    rw [h.declared k rfl hdecl]
    have hne : old ≠ .func k := by
      rintro rfl
      rw [hdeclared k rfl] at hdecl
      cases hdecl
    simp [Value.substitute, hne.symm]

/-- The calls of `p` are the calls of `q`, or some of them. They stand in the function where they
    stood, and what they are given has lasted. -/
structure Persists (p q : Program) : Prop where
  enclosed : q.Enclosed
  instrs : p.instrs.size ≤ q.instrs.size
  func : ∀ k, (q.func k).attributes = (p.func k).attributes ∧
    ((p.func k).erased = true → (q.func k).erased = true)
  declared : ∀ k, (p.func k).isDeclaration = true → q.func k = p.func k
  kind : ∀ i, (q.instr i).isCall = (p.instr i).isCall ∧
    (q.instr i).isInvoke = (p.instr i).isInvoke
  stands : ∀ i k, (p.instr i).calls = true → q.functionOf? i = some k → p.functionOf? i = some k
  operands : ∀ i, (p.instr i).calls = true →
    List.Forall₂ p.Lasts (p.instr i).operands (q.instr i).operands

theorem Persists.refl (hp : p.Enclosed) : p.Persists p where
  enclosed := hp
  instrs := Nat.le_refl _
  func _ := ⟨rfl, id⟩
  declared _ _ := rfl
  kind _ := ⟨rfl, rfl⟩
  stands _ _ _ h := h
  operands _ _ := List.forall₂_same.mpr fun v _ => .refl p v

theorem lt_of_calls (h : (p.instr i).calls = true) : i.index < p.instrs.size := by
  by_contra hge
  rw [instr_of_le (Nat.not_lt.mp hge)] at h
  cases h

theorem Persists.calls (h : p.Persists q) (i : InstrId) : (q.instr i).calls = (p.instr i).calls := by
  rw [Instr.calls, Instr.calls, (h.kind i).1, (h.kind i).2]

theorem Persists.calledFunction? (h : p.Persists q)
    (hk : (p.instr i).calledFunction? = some k) (hdecl : (p.func k).isDeclaration = true) :
    (q.instr i).calledFunction? = some k := by
  obtain ⟨hcalls, hlast⟩ := Instr.calledFunction?_iff.mp hk
  have hlasts := List.rel_reverse (h.operands i hcalls)
  rw [List.getLast?_eq_head?_reverse, List.head?_eq_some_iff] at hlast
  obtain ⟨front, hfront⟩ := hlast
  rw [hfront] at hlasts
  obtain ⟨w, front', hw, -, hback⟩ := List.forall₂_cons_left_iff.mp hlasts
  obtain rfl := hw.declared k rfl hdecl
  refine Instr.calledFunction?_iff.mpr ⟨(h.calls i).trans hcalls, ?_⟩
  rw [List.getLast?_eq_head?_reverse, hback, List.head?_cons]

/-! ## 2. Changes -/

theorem Persists.rework (h : p.Persists q) (hr : r.Enclosed) (hs : q.SameFrame r)
    (hfunc : ∀ k, r.func k = q.func k)
    (hkind : ∀ i, (r.instr i).isCall = (q.instr i).isCall ∧
      (r.instr i).isInvoke = (q.instr i).isInvoke)
    (hoperands : ∀ i, (q.instr i).calls = true → ∀ vs, List.Forall₂ p.Lasts vs (q.instr i).operands →
      List.Forall₂ p.Lasts vs (r.instr i).operands) : p.Persists r where
  enclosed := hr
  instrs := hs.instrs ▸ h.instrs
  func k := by rw [hfunc]; exact h.func k
  declared k hk := (hfunc k).trans (h.declared k hk)
  kind i := ⟨(hkind i).1.trans (h.kind i).1, (hkind i).2.trans (h.kind i).2⟩
  stands i k hi hk := h.stands i k hi (((hs.places hfunc).functionOf i).symm.trans hk)
  operands i hi := hoperands i ((h.calls i).trans hi) _ (h.operands i hi)

theorem Persists.takeName (h : p.Persists q) (source target : InstrId) :
    p.Persists (q.takeName source target) := by
  refine h.rework (h.enclosed.takeName source target) (sameFrame_takeName q source target)
    (fun _ => rfl) (fun i => ?_) fun i _ vs hvs => ?_
  all_goals
    obtain ⟨name, hname⟩ := instr_takeName q source target i
    rw [hname]
  · exact ⟨rfl, rfl⟩
  · exact hvs

theorem Persists.forgetEntry (h : p.Persists q) (id : InstrId) (source : BlockId) :
    p.Persists (q.updateInstr id (forgetEntry · source)) := by
  have hsame : ∀ i, (q.updateInstr id (Program.forgetEntry · source)).instr i = q.instr i ∨
      (q.updateInstr id (Program.forgetEntry · source)).instr i =
        Program.forgetEntry (q.instr i) source := by
    intro i
    rw [instr_updateInstr]
    split
    · exact .inr rfl
    · exact .inl rfl
  refine h.rework (h.enclosed.forgetEntry id source)
    (sameFrame_updateInstr (g := (Program.forgetEntry · source))
      (fun i => ⟨(forgetEntry_same i source).1, (forgetEntry_same i source).2.1⟩) q id)
    (fun _ => rfl) (fun i => ?_) fun i hi vs hvs => ?_
  · rcases hsame i with he | he
    all_goals
      rw [he]
    · exact ⟨rfl, rfl⟩
    · exact ⟨Instr.isCall_forgetEntry .., (Instr.SameReading.forgetEntry ..).invoke⟩
  · have hplain : (q.instr i).isPhi = false := by
      unfold Instr.calls Instr.isCall Instr.isInvoke at hi
      unfold Instr.isPhi
      cases hkind : (q.instr i).kind with
      | phi =>
        rw [hkind] at hi
        cases hi
      | _ => rfl
    rcases hsame i with he | he
    · rwa [he]
    · rwa [he, forgetEntry_plain hplain]

theorem Persists.replaceUses {old new : Value} (h : p.Persists q)
    (hr : (q.replaceUses old new).Enclosed) (hundef : ∀ ty, old ≠ .undef ty)
    (hresult : ∀ i, old = .instr i → (q.instr i).isCall = true → ∃ ty, new = .undef ty)
    (hdeclared : ∀ k, old = .func k → (p.func k).isDeclaration = false) :
    p.Persists (q.replaceUses old new) := by
  refine h.rework hr (sameFrame_replaceUses q old new) (fun _ => rfl) (fun i => ?_) fun i _ vs hvs => ?_
  · have hkind := kind_replaceUses q old new i
    rw [Instr.isCall, Instr.isCall, Instr.isInvoke, Instr.isInvoke, hkind]
    exact ⟨rfl, rfl⟩
  · rw [instr_replaceUses]
    split
    · refine List.forall₂_map_right_iff.mpr (hvs.imp fun v w hlasts => ?_)
      exact hlasts.substitute hundef (fun i hi hcall => hresult i hi ((h.kind i).1.trans hcall))
        hdeclared
    · exact hvs

theorem Enclosed.undefine {old : Value} (h : q.Enclosed) (ty : Ty) :
    (q.replaceUses old (.undef ty)).Enclosed := by
  have hhome : ∀ {f w}, AtHome q f w → AtHome q f (Value.substitute old (.undef ty) w) := by
    intro f w hw
    cases w <;> unfold Value.substitute <;> split <;> first | exact hw | trivial
  refine h.rework (sameFrame_replaceUses q old _) (fun _ => rfl) fun f i hf hi v hv => ?_
  rw [instr_replaceUses] at hv
  split at hv
  · obtain ⟨w, hw, rfl⟩ := List.mem_map.mp hv
    exact hhome (h.operands f i hf hi w hw)
  · exact h.operands f i hf hi v hv

theorem Persists.undefine (h : p.Persists q) (id : InstrId) (ty : Ty) :
    p.Persists (q.replaceUses (.instr id) (.undef ty)) :=
  h.replaceUses (h.enclosed.undefine ty) (fun _ => Value.noConfusion)
    (fun _ _ _ => ⟨ty, rfl⟩) fun _ => Value.noConfusion

theorem Persists.undefineFunction (h : p.Persists q) {g : FuncId}
    (hg : (p.func g).isDeclaration = false) (ty : Ty) :
    p.Persists (q.replaceUses (.func g) (.undef ty)) := by
  refine h.replaceUses (h.enclosed.undefine ty) (fun _ => Value.noConfusion) (fun _ => Value.noConfusion) ?_
  rintro k heq
  cases heq
  exact hg

theorem Persists.dropInstr {id : InstrId} (h : p.Persists q) (hlive : (q.instr id).erased = false) :
    p.Persists (q.dropInstr id) where
  enclosed := h.enclosed.dropInstr hlive
  instrs := (sizes_dropInstr q id).2.2 ▸ h.instrs
  func k := by rw [func_dropInstr]; exact h.func k
  declared k hk := (func_dropInstr q id k).trans (h.declared k hk)
  kind i := by
    rw [Instr.isCall, Instr.isInvoke, (same_dropInstr q id i).1]
    exact h.kind i
  stands i k hi hk := by
    refine h.stands i k hi ?_
    rwa [functionOf_dropInstr] at hk
    rintro rfl
    rw [not_functionOf_dropInstr (instr_lt_of_live hlive)] at hk
    cases hk
  operands i hi := by
    rw [(same_dropInstr q id i).2.2]
    exact h.operands i hi

theorem Persists.dropFunction {g : FuncId} (h : p.Persists q)
    (hg : (p.func g).isDeclaration = false) (hlive : (q.func g).erased = false) :
    p.Persists (q.dropFunction g) where
  enclosed := h.enclosed.dropFunction hlive
  instrs := Nat.le_trans h.instrs (sound_dropFunction h.enclosed.sound).2.instrs
  func k := by
    obtain ⟨-, hshrinks⟩ := trims_dropFunction g h.enclosed.sound
    refine ⟨?_, fun hk => hshrinks.erasedFunc k ((h.func k).2 hk)⟩
    rw [hshrinks.func k]
    exact (h.func k).1
  declared k hk := by
    rw [func_dropFunction h.enclosed.sound]
    · exact h.declared k hk
    · rintro rfl
      rw [hg] at hk
      cases hk
  kind i := by
    obtain ⟨_, _, he⟩ := same_dropFunction q g i
    rw [he]
    exact h.kind i
  stands i k hi hk := h.stands i k hi (left_dropFunction h.enclosed.sound hk).1
  operands i hi := by
    obtain ⟨_, _, he⟩ := same_dropFunction q g i
    rw [he]
    exact h.operands i hi

theorem left_dropBlock {b : BlockId} (hq : q.Sound)
    (hlive : (q.block b).erased = false) (hi : (q.dropBlock b).functionOf? i = some f) :
    q.functionOf? i = some f ∧ (q.dropBlock b).instr i = q.instr i := by
  have hr := (evolves_dropBlock hlive hq).1
  have hsame : (q.dropBlock b).instr i = q.instr i := by
    have hstays := hr.live_of_functionOf hi
    rw [instr_dropBlock] at hstays ⊢
    split
    · rename_i hgone
      rw [if_pos hgone] at hstays
      cases hstays
    · rfl
  refine ⟨?_, hsame⟩
  obtain ⟨c, hc, hparent⟩ := Option.bind_eq_some_iff.mp hi
  rw [hsame] at hc
  refine Option.bind_eq_some_iff.mpr ⟨c, hc, ?_⟩
  rwa [block_dropBlock_ne] at hparent
  rintro rfl
  rw [block_dropBlock_self (block_lt_of_live hlive)] at hparent
  cases hparent

theorem Enclosed.dropBlock {b : BlockId} (h : q.Enclosed) (hlive : (q.block b).erased = false)
    (hunused : q.hasUses (.block b) = false) : (q.dropBlock b).Enclosed := by
  have hr := (evolves_dropBlock hlive h.sound).1
  have hfunc : ∀ f, ((q.dropBlock b).func f).erased = (q.func f).erased := by
    intro f
    rw [func_dropBlock]
    split <;> rfl
  obtain ⟨hfunctions, -, hinstrs⟩ := sizes_dropBlock q b
  refine ⟨hr, fun f i hf hi v hv => ?_⟩
  obtain ⟨hi', hsame⟩ := left_dropBlock h.sound hlive hi
  rw [hfunc] at hf
  rw [hsame] at hv
  have hhome := h.operands f i hf hi' v hv
  cases v with
  | instr j =>
    exact ⟨hinstrs ▸ hhome.1, fun g hg => hhome.2 g (left_dropBlock h.sound hlive hg).1⟩
  | block c =>
    refine (congrArg Block.parent (block_dropBlock_ne ?_)).trans hhome
    rintro rfl
    obtain ⟨d, hd, -⟩ := Option.bind_eq_some_iff.mp hi'
    have huses : q.hasUses (.block b) = true := hasUses_iff.mpr (.inl
      ⟨i, h.sound.live_of_functionOf hi', by rw [hd]; rfl, Instr.uses_of_mem hv⟩)
    rw [hunused] at huses
    cases huses
  | func k => exact Nat.lt_of_lt_of_eq hhome hfunctions.symm
  | _ => trivial

theorem Persists.dropBlock {b : BlockId} (h : p.Persists q) (hlive : (q.block b).erased = false)
    (hunused : q.hasUses (.block b) = false) : p.Persists (q.dropBlock b) where
  enclosed := h.enclosed.dropBlock hlive hunused
  instrs := (sizes_dropBlock q b).2.2 ▸ h.instrs
  func k := by
    rw [func_dropBlock]
    split <;> exact h.func k
  declared k hk := by
    rw [func_dropBlock, if_neg]
    · exact h.declared k hk
    · intro hparent
      have hmem := h.enclosed.sound.mem_blocks.mpr hparent
      rw [h.declared k hk, List.isEmpty_iff.mp hk] at hmem
      cases hmem
  kind i := by
    obtain ⟨_, _, he⟩ := same_dropBlock q b i
    rw [he]
    exact h.kind i
  stands i k hi hk := h.stands i k hi (left_dropBlock h.enclosed.sound hlive hk).1
  operands i hi := by
    obtain ⟨_, _, he⟩ := same_dropBlock q b i
    rw [he]
    exact h.operands i hi

/-! ## 3. Folding -/

theorem Tweak.persists (h : Tweak false c q r) (hp : p.Persists q) : p.Persists r := by
  have henclosed := (h.enclosed hp.enclosed).1
  cases h with
  | @replace id v hid hcall hv =>
    refine hp.replaceUses henclosed (fun _ => Value.noConfusion) ?_ fun _ => Value.noConfusion
    rintro i heq hi
    cases heq
    rw [hcall] at hi
    cases hi
  | drop hid => exact hp.dropInstr (hp.enclosed.sound.live_of_functionOf hid)
  | @insert _ d id new hid hd hforks hnew h =>
    obtain ⟨b, front, back, hins⟩ := insert_before_ok h
    have hbr : d.kind = .br := hnew.resolve_right Bool.false_ne_true
    obtain ⟨name, hmade⟩ := hins.made
    have hold : p.instrs.size ≤ new.index := by
      rw [hins.fresh]
      exact hp.instrs
    have hne : ∀ {i}, (p.instr i).calls = true → i ≠ new := by
      rintro i hi rfl
      exact absurd (lt_of_calls hi) (Nat.not_lt.mpr hold)
    refine ⟨henclosed, ?_, fun k => ?_, fun k hk => ?_, fun i => ?_, fun i k hi hk => ?_,
      fun i hi => ?_⟩
    · rw [hins.instrs]
      exact Nat.le_succ_of_le hp.instrs
    · rw [hins.func]
      exact hp.func k
    · rw [hins.func]
      exact hp.declared k hk
    · by_cases hi : i = new
      · rw [hi, hmade, instr_of_le hold, Instr.isCall, Instr.isInvoke, hbr]
        exact ⟨rfl, rfl⟩
      · rw [hins.instr i hi]
        exact hp.kind i
    · rw [hins.functionOf (hne hi)] at hk
      exact hp.stands i k hi hk
    · rw [hins.instr i (hne hi)]
      exact hp.operands i hi
  | name source target => exact hp.takeName source target
  | forget id source => exact hp.forgetEntry id source

theorem Tweaks.persists (h : Tweaks false c q r) (hp : p.Persists q) : p.Persists r := by
  induction h with
  | refl => exact hp
  | tail _ h ih => exact h.persists ih

/-! ## 4. Calls of declared functions -/

/-- A function calls nothing but declared functions, by name. -/
def CallsDeclared (p : Program) (f : FuncId) : Prop :=
  ∀ i, p.functionOf? i = some f → (p.instr i).calls = true → ∃ k,
    (p.instr i).calledFunction? = some k ∧ (p.func k).erased = false ∧
      (p.func k).isDeclaration = true

variable {f : FuncId}

theorem CallsDeclared.called (h : p.CallsDeclared f)
    (hi : p.functionOf? i = some f) (hk : (p.instr i).calledFunction? = some k) :
    (p.func k).erased = false ∧ (p.func k).isDeclaration = true := by
  obtain ⟨k', hk', hdeclared⟩ := h i hi (Instr.calledFunction?_iff.mp hk).1
  rw [hk, Option.some_inj] at hk'
  exact hk' ▸ hdeclared

theorem Persists.callsDeclared (h : p.Persists q) (hcalls : p.CallsDeclared f) :
    q.CallsDeclared f := by
  intro i hi hcall
  rw [h.calls] at hcall
  obtain ⟨k, hk, hlive, hdecl⟩ := hcalls i (h.stands i f hcall hi) hcall
  exact ⟨k, h.calledFunction? hk hdecl, h.declared k hdecl ▸ ⟨hlive, hdecl⟩⟩

theorem Enclosed.confined (h : p.Enclosed) (hf : (p.func f).erased = false)
    (hcalls : p.CallsDeclared f) : p.Confined (· ∈ (p.func f).blocks) where
  live _ hb := h.sound.block_live_of_listed hb
  onward _ i hb hi _ hc := h.sound.mem_blocks.mpr
    (h.operands f i hf (h.sound.functionOf_of_mem hb hi) _ (Instr.mem_of_taken hc))
  calls _ _ _ hb hi hk := hcalls.called (h.sound.functionOf_of_mem hb hi) hk

/-- What persists in a program still does behind a change of it. -/
def Upholds (p q r : Program) : Prop := p.Persists q → p.Persists r

instance : IsPreorder Program (Upholds p) where
  refl _ h := h
  trans _ _ _ h₁ h₂ h := h₂ (h₁ h)

end Program

namespace Transform

open Program

variable {p q r : Program} {a : ActiveCode}

/-! ## 5. Dead code -/

theorem Deletes.upholds {F : FuncId → Prop} (hF : ∀ f, F f → (p.func f).isDeclaration = false)
    (h : Deletes F q r) : Upholds p q r := by
  intro hq
  cases h with
  | @remove id ty hlive =>
    exact (hq.undefine id ty).dropInstr
      (((sameFrame_replaceUses q (.instr id) (.undef ty)).instr id).2.trans hlive)
  | undefine ty hf => exact hq.undefineFunction (hF _ hf) ty
  | forgetEntry id source => exact hq.forgetEntry id source
  | dropBlock hlive hunused => exact hq.dropBlock hlive hunused
  | eraseFunction hf h =>
    obtain ⟨hlive, rfl⟩ := (eraseFunction_ok hq.enclosed.sound).mp h
    exact hq.dropFunction (hF _ hf) hlive

/-- A phi that gives way and the value that it gives way to, which is at home where the phi stands. -/
def SettlesAtHome (p : Program) (x : InstrId × Value) : Prop :=
  ∃ c, p.functionOf? x.1 = some c ∧ AtHome p c x.2

theorem atHome_settle {done : List (InstrId × Value)} {v : Value}
    (hdone : ∀ x ∈ done, SettlesAtHome p x) (hv : AtHome p c v) : AtHome p c (settle done v) := by
  unfold settle
  induction done generalizing v with
  | nil => exact hv
  | cons x done ih =>
    refine ih (fun y hy => hdone y (List.mem_cons_of_mem x hy)) ?_
    dsimp only
    split
    · rename_i heq
      subst heq
      obtain ⟨g, hg, hhome⟩ := hdone x List.mem_cons_self
      exact hv.2 g hg ▸ hhome
    · exact hv

/-- What gives way in `o` still stands where it stood, or it is gone. -/
structure Receding (o q : Program) : Prop where
  spares : Spares (fun _ => True) o q
  block : ∀ b, (q.block b).parent = (o.block b).parent

theorem Receding.functionOf {o : Program} (h : Receding o q)
    (hi : o.functionOf? i = some c) (hlive : (q.instr i).erased = false) :
    q.functionOf? i = some c := by
  obtain ⟨b, hb, hparent⟩ := Option.bind_eq_some_iff.mp hi
  exact Option.bind_eq_some_iff.mpr ⟨b, (h.spares.parent i (instr_lt_of_parent hb) hlive).trans hb,
    (h.block b).trans hparent⟩

theorem persists_replacePhis {o : Program} {done rest : List (InstrId × Value)} {u : Unit}
    (ho : o.Sound) (hq : p.Persists q) (hs : Receding o q) (hdone : ∀ x ∈ done, SettlesAtHome o x)
    (hrest : ∀ x ∈ rest, SettlesAtHome o x ∧ (q.instr x.1).isPhi = true)
    (h : replacePhis done rest q = .ok u r) : p.Persists r := by
  induction rest generalizing q done with
  | nil =>
    cases h
    exact hq
  | cons x rest ih =>
    obtain ⟨phi, w⟩ := x
    obtain ⟨⟨c, hc, hw⟩, hphi⟩ := hrest (phi, w) List.mem_cons_self
    have hv : AtHome o c (settle done w) := atHome_settle hdone hw
    unfold replacePhis at h
    obtain ⟨_, q₁, h₁, h⟩ := bind_ok h
    obtain ⟨_, q₂, h₂, h⟩ := bind_ok h
    obtain ⟨_, q₃, h₃, h⟩ := bind_ok h
    obtain rfl := modify_ok h₂
    obtain ⟨hlive, rfl⟩ := eraseInstr_ok.mp (attempt_ok.mp h₃)
    -- only a name has changed so far
    have hname : p.Persists q₁ ∧ Receding o q₁ ∧ ∀ i, (q₁.instr i).kind = (q.instr i).kind := by
      cases hto : (settle done w).toInstr? with
      | none =>
        rw [hto] at h₁
        obtain ⟨-, rfl⟩ := pure_ok h₁
        exact ⟨hq, hs, fun _ => rfl⟩
      | some target =>
        rw [hto] at h₁
        obtain rfl := modify_ok h₁
        exact ⟨hq.takeName phi target, ⟨hs.spares.trans (spares_takeName hq.enclosed.sound ..),
          fun b => ((sameFrame_takeName q phi target).block b).1.trans (hs.block b)⟩,
          fun i => kind_takeName q phi target i⟩
    obtain ⟨hq₁, hs₁, hkind₁⟩ := hname
    have hsame := sameFrame_replaceUses q₁ (.instr phi) (settle done w)
    have hcall : (q₁.instr phi).isCall = false := by
      obtain ⟨blocks, hblocks⟩ := Instr.isPhi_iff.mp hphi
      rw [Instr.isCall, hkind₁, hblocks]
    have hstands : q₁.functionOf? phi = some c := hs₁.functionOf hc ((hsame.instr phi).2 ▸ hlive)
    have henclosed : (q₁.replaceUses (.instr phi) (settle done w)).Enclosed :=
      hq₁.enclosed.replaceUses hstands fun _ => hv.transport hs₁.spares ho hq₁.enclosed.sound
        fun b hb => (hs₁.block b).trans hb
    have hq₂ : p.Persists (q₁.replaceUses (.instr phi) (settle done w)) := by
      refine hq₁.replaceUses henclosed (fun _ => Value.noConfusion) ?_ fun _ => Value.noConfusion
      rintro i heq hi
      cases heq
      rw [hcall] at hi
      cases hi
    have hs₂ : Receding o (q₁.replaceUses (.instr phi) (settle done w)) :=
      ⟨hs₁.spares.trans (spares_replaceUses hq₁.enclosed.sound ..), hs₁.block⟩
    refine ih (hq₂.dropInstr hlive) ⟨hs₂.spares.trans (spares_dropInstr hq₂.enclosed.sound hlive
      fun _ _ => trivial), fun b => ?_⟩ (fun y hy => ?_) (fun y hy => ?_) h
    · rw [block_dropInstr]
      split <;> exact hs₂.block b
    · rcases List.mem_append.mp hy with hy | hy
      · exact hdone y hy
      · obtain rfl := List.mem_singleton.mp hy
        exact ⟨c, hc, hv⟩
    · obtain ⟨hway, hyphi⟩ := hrest y (List.mem_cons_of_mem _ hy)
      refine ⟨hway, ?_⟩
      rw [Instr.isPhi, (same_dropInstr ..).1, kind_replaceUses, hkind₁]
      exact hyphi

theorem persists_replaceSettledPhis (hq : p.Persists q)
    (h : replaceSettledPhis a q = .ok n r) : p.Persists r := by
  unfold replaceSettledPhis at h
  obtain ⟨_, _, h₁, h⟩ := bind_ok h
  obtain ⟨rfl, rfl⟩ := get_ok h₁
  obtain ⟨_, q₁, h₂, h⟩ := bind_ok h
  obtain ⟨-, rfl⟩ := pure_ok h
  have hsound := hq.enclosed.sound
  refine persists_replacePhis hsound hq ⟨.refl hsound, fun _ => rfl⟩
    (fun _ hx => absurd hx List.not_mem_nil) ?_ h₂
  rintro ⟨id, v⟩ hx
  obtain ⟨⟨f, hf, hif⟩, hv⟩ := mem_settledPhis.mp hx
  obtain ⟨hphi, hmem⟩ := activeInput?_some hv
  have hstands := hsound.mem_instrsOf.mp hif
  exact ⟨⟨f, hstands, hq.enclosed.operands f id hf hstands v hmem⟩, hphi⟩

theorem persists_deleteDeadCode {n : Nat × Nat} (hq : p.Persists q)
    (h : deleteDeadCode a q = .ok n r) : p.Persists r := by
  refine deleteDeadCode_steps (R := Upholds p) (fun _ _ => Deletes.upholds fun f hf => ?_) h hq
  obtain ⟨-, -, hdef⟩ := mem_deadFunctions.mp hf
  refine Bool.eq_false_iff.mpr fun hdecl => ?_
  rw [hq.declared f hdecl, hdecl] at hdef
  cases hdef

theorem persists_removeDeadCode {stats stats' : TransformStatistics}
    (hq : p.Persists q) (h : removeDeadCode s stats q = .ok stats' r) : p.Persists r := by
  obtain ⟨a, phis, q₁, n, -, hphis, hdelete⟩ := removeDeadCode_parts h
  exact persists_deleteDeadCode (persists_replaceSettledPhis hq hphis) hdelete

/-! ## 6. All phases before the rules -/

variable {s : TransformSettings} {f : FuncId}

theorem specialiseCall_declared {id : InstrId} {t : PathState Nat}
    (h : ∀ k, (t.program.instr id).calledFunction? = some k →
      (t.program.func k).isDeclaration = true) :
    specialiseCall s (.instr id) t = .ok (some (.instr id)) t := by
  have hnone : expandable? t.program (t.program.instr id) = none := by
    unfold expandable?
    split
    · rename_i callee _ hcallee
      simp [h callee hcallee]
    · rfl
  have hprogram : (Walk.program : Walk Nat Program) t = .ok t.program t := rfl
  unfold specialiseCall
  dsimp only
  rw [bind_of_ok hprogram, hnone]
  rfl

theorem walk_specialiseCall {b : Bool} {u : PathState Nat} (hp : p.Enclosed)
    (hcalls : p.CallsDeclared f)
    (h : Walk.walk s.limits (specialiseCall s) f { program := p, extra := n } = .ok b u) :
    u.program = p := by
  unfold Walk.walk at h
  cases hdepth : s.limits.maxDepth with
  | zero =>
    rw [hdepth] at h
    obtain ⟨-, rfl⟩ := pure_ok h
    rfl
  | succ depth =>
    rw [hdepth] at h
    by_cases hover : Walk.passesOver (⟨p, [], [], n⟩ : PathState Nat) f = true
    · rw [Walk.walkWithin_apply, if_pos hover] at h
      cases h
      rfl
    obtain ⟨hlive, hdefined⟩ : (p.func f).erased = false ∧ (p.func f).isDeclaration = false := by
      simpa [Walk.passesOver] using hover
    obtain ⟨entry, rest, hblocks⟩ := List.exists_cons_of_ne_nil
      (mt List.isEmpty_iff.mpr (Bool.eq_false_iff.mp hdefined))
    have hconfined := hp.confined hlive hcalls
    have hworks : Works p (· ∈ (p.func f).blocks) (p.route f) (specialiseCall s) (fun _ => True)
        fun _ q _ => q = p :=
      { reads := fun hq => hq ▸ hp.sound.reads _
        other := fun {_ v t} _ hv => by
          cases v with
          | instr => cases hv
          | _ => exact ⟨_, rfl⟩
        instr := by
          rintro done rest b id t hq hb hid - -
          refine comesTo_of_ok (specialiseCall_declared fun k hk => ?_) ⟨rfl, hq, rfl⟩
          rw [hq] at hk ⊢
          exact (hconfined.calls b id k hb hid hk).2
        invoke := fun _ _ _ _ => trivial }
    exact (hworks.walkWithin hconfined hp.sound rfl hlive (by rw [Func.entryBlock?, hblocks]; rfl)
      (hblocks ▸ List.mem_cons_self) List.not_mem_nil).of_ok h

theorem persists_specialiseCalls (hexcept : s.assumeNoExcept = false) (hp : p.Enclosed)
    (hentry : s.entryPoints p = [f]) (hcalls : p.CallsDeclared f)
    (h : specialiseCalls s p = .ok n q) : p.Persists q := by
  unfold specialiseCalls at h
  split at h
  swap
  · cases h
  rename_i u t hexpand
  cases h
  rw [hentry] at hexpand
  obtain ⟨m, t₁, hfold, hexpand⟩ := bind_ok hexpand
  obtain ⟨b, t₂, hwalk, hexpand⟩ := bind_ok hexpand
  obtain ⟨-, rfl⟩ := pure_ok hexpand
  obtain ⟨p₁, hcompile, rfl⟩ := walkCompile_ok.mp hfold
  rw [hexcept] at hcompile
  have hpersists := (foldControlFlow_tweaks hp.sound hcompile).persists (.refl hp)
  rw [walk_specialiseCall hpersists.enclosed (hpersists.callsDeclared hcalls) hwalk]
  exact hpersists

/-- A body that calls declared functions only comes through the phases before the rules. -/
theorem persists_prepare {c c' : Compilation} {stats : TransformStatistics}
    (hexcept : s.assumeNoExcept = false) (hp : c.program.Enclosed)
    (hentry : s.entryPoints c.program = [f]) (hcalls : c.program.CallsDeclared f)
    (h : prepare s c = .ok stats c') : c.program.Persists c'.program := by
  unfold prepare at h
  obtain ⟨cloned, c₁, hclone, h⟩ := bind_ok h
  have h₁ : c.program.Persists c₁.program := by
    split at hclone
    · obtain ⟨q, hspecialise, rfl⟩ := compile_ok.mp hclone
      exact persists_specialiseCalls hexcept hp hentry hcalls hspecialise
    · obtain ⟨-, rfl⟩ := pure_ok hclone
      exact .refl hp
  split at h
  · obtain ⟨q, hremove, rfl⟩ := compile_ok.mp h
    exact persists_removeDeadCode h₁ hremove
  · obtain ⟨-, rfl⟩ := pure_ok h
    exact h₁

end Transform

end QirProfile
