import QirProfile.Proofs.Rule.Finding

/-!
# Programs that rules have added to

Rules put instructions in and turn uses, and nothing goes before the schedule is carried out. This is about
what a program has come to by then.
-/

namespace QirProfile

/-! ## 1. Operands -/

/-- An operand when the uses of an instruction have been turned to its answer, if it has got one. -/
def Value.turn (id : InstrId) (answer : Option InstrId) (v : Value) : Value :=
  answer.elim v fun a => substitute (.instr id) (.instr a) v

namespace Value

variable {id i : InstrId} {answer : Option InstrId}

theorem turn_self (id a : InstrId) : turn id (some a) (.instr id) = .instr a :=
  ((flat_of_isLocal rfl).substitute rfl _).trans (if_pos rfl)

theorem turn_instr_of_ne (h : i ≠ id) : turn id answer (.instr i) = .instr i := by
  cases answer with
  | none => rfl
  | some a => exact ((flat_of_isLocal rfl).substitute rfl _).trans (if_neg (by simpa using h))

theorem turn_int (bits : Nat) (n : Int) : turn id answer (.int bits n) = .int bits n := by
  cases answer with
  | none => rfl
  | some a =>
    change substitute _ _ _ = _
    unfold substitute
    rw [if_neg nofun]

theorem turn_ofInt (bits : Nat) (n : Int) : turn id answer (.ofInt bits n) = .ofInt bits n :=
  turn_int bits _

end Value

/-- Whether it is a load, or a conversion that an access to an array element goes through. -/
def InstrKind.accesses : InstrKind → Bool
  | .load _ | .cast .bitcast => true
  | _ => false

namespace Program

variable {p q q₀ r : Program} {T T' T'' : Traces} {id i new : InstrId} {b : BlockId} {place : Place}
  {around : List InstrId} {name : String}

/-! ## 2. Programs that have been added to -/

/-- What was in a program is still in its place. What is new accesses no array elements and calls only what
    rules put calls of in, and globals have come to refer to nothing else. -/
structure Extends (p q : Program) : Prop where
  sound : q.Sound
  instrs : p.instrs.size ≤ q.instrs.size
  functions : p.functions.size ≤ q.functions.size
  func : ∀ k : FuncId, k.index < p.functions.size → q.func k = p.func k
  declared : ∀ k : FuncId, p.functions.size ≤ k.index → (q.func k).name ∈ "" :: insertedCalls
  listed : ∀ b, (p.block b).instrs.Sublist (q.block b).instrs
  instr : ∀ i : InstrId, i.index < p.instrs.size → (q.instr i).kind = (p.instr i).kind ∧
    (q.instr i).ty = (p.instr i).ty ∧ (q.instr i).parent = (p.instr i).parent ∧
    (q.instr i).erased = (p.instr i).erased ∧
    (q.instr i).calledFunction? = (p.instr i).calledFunction?
  new : ∀ i : InstrId, p.instrs.size ≤ i.index → (q.instr i).kind.accesses = false ∧
    ∀ k, (q.instr i).calledFunction? = some k → (q.func k).name ∈ insertedCalls
  globals : ∀ (o : InstrId) g, (q.global g).uses (.instr o) = true →
    (p.global g).uses (.instr o) = true ∨ p.instrs.size ≤ o.index

theorem Extends.refl (hp : p.Sound) : p.Extends p where
  sound := hp
  instrs := Nat.le_refl _
  functions := Nat.le_refl _
  func _ _ := rfl
  declared k hk := by
    rw [func_of_le hk]
    exact List.mem_cons_self
  listed _ := .refl _
  instr _ _ := ⟨rfl, rfl, rfl, rfl, rfl⟩
  new i hi := by
    rw [instr_of_le hi]
    exact ⟨rfl, nofun⟩
  globals _ _ h := .inl h

theorem Extends.trans (h : p.Extends q) (h' : q.Extends r) : p.Extends r where
  sound := h'.sound
  instrs := Nat.le_trans h.instrs h'.instrs
  functions := Nat.le_trans h.functions h'.functions
  func k hk := (h'.func k (Nat.lt_of_lt_of_le hk h.functions)).trans (h.func k hk)
  declared k hk := by
    by_cases hlt : k.index < q.functions.size
    · rw [h'.func k hlt]
      exact h.declared k hk
    · exact h'.declared k (Nat.not_lt.mp hlt)
  listed b := (h.listed b).trans (h'.listed b)
  instr i hi := by
    obtain ⟨hkind, hty, hparent, herased, hcalled⟩ := h.instr i hi
    obtain ⟨hkind', hty', hparent', herased', hcalled'⟩ :=
      h'.instr i (Nat.lt_of_lt_of_le hi h.instrs)
    exact ⟨hkind'.trans hkind, hty'.trans hty, hparent'.trans hparent, herased'.trans herased,
      hcalled'.trans hcalled⟩
  new i hi := by
    by_cases hlt : i.index < q.instrs.size
    · obtain ⟨hkind, -, -, -, hcalled⟩ := h'.instr i hlt
      obtain ⟨haccesses, hcalls⟩ := h.new i hi
      rw [hkind, hcalled]
      refine ⟨haccesses, fun k hk => ?_⟩
      have hname := hcalls k hk
      rw [h'.func k]
      · exact hname
      · by_contra hge
        rw [func_of_le (Nat.not_lt.mp hge)] at hname
        exact absurd hname (by decide)
    · exact h'.new i (Nat.not_lt.mp hlt)
  globals o g huses := (h'.globals o g huses).elim (h.globals o g) fun hle =>
    .inr (Nat.le_trans h.instrs hle)

theorem Extends.calls (h : p.Extends q) (hname : name ≠ "") (hcalls : p.Calls i name) : q.Calls i name := by
  have hlt := hcalls.lt
  obtain ⟨k, hk, rfl⟩ := hcalls
  refine ⟨k, (h.instr i hlt).2.2.2.2.trans hk, ?_⟩
  rw [h.func k]
  by_contra hge
  exact hname (by rw [func_of_le (Nat.not_lt.mp hge)]; rfl)

theorem Extends.calls_iff (h : p.Extends q) (hi : i.index < p.instrs.size)
    (hname : name ∉ "" :: insertedCalls) : q.Calls i name ↔ p.Calls i name := by
  have hcalled := (h.instr i hi).2.2.2.2
  refine ⟨?_, h.calls fun hempty => hname (hempty ▸ List.mem_cons_self)⟩
  rintro ⟨k, hk, rfl⟩
  refine ⟨k, hcalled.symm.trans hk, ?_⟩
  rw [h.func k]
  by_contra hge
  exact hname (h.declared k (Nat.not_lt.mp hge))

theorem Extends.old_of_calls (h : p.Extends q) (hcalls : q.Calls i name)
    (hname : name ∉ insertedCalls) : i.index < p.instrs.size := by
  by_contra hge
  obtain ⟨k, hk, rfl⟩ := hcalls
  exact hname ((h.new i (Nat.not_lt.mp hge)).2 k hk)

theorem Extends.same_calls (h : p.Extends q) (hname : name ∉ "" :: insertedCalls) :
    q.Calls i name ↔ p.Calls i name := by
  refine ⟨fun hcalls => ?_, fun hcalls => (h.calls_iff hcalls.lt hname).mpr hcalls⟩
  have hlt := h.old_of_calls hcalls fun hmem => hname (List.mem_cons_of_mem _ hmem)
  exact (h.calls_iff hlt hname).mp hcalls

theorem Extends.mem_instrs (h : p.Extends q) (hp : p.Sound) (hi : i.index < p.instrs.size)
    {b : BlockId} : i ∈ (q.block b).instrs ↔ i ∈ (p.block b).instrs := by
  rw [h.sound.mem_instrs, hp.mem_instrs, (h.instr i hi).2.2.1]

theorem Extends.live (h : p.Extends q) (hi : (p.instr i).erased = false) :
    (q.instr i).erased = false :=
  (h.instr i (instr_lt_of_live hi)).2.2.2.1.trans hi

theorem Traces.sublist_places (T : Traces) (ids : List InstrId) : ids.Sublist (ids.flatMap T.place) := by
  induction ids with
  | nil => exact .slnil
  | cons i ids ih =>
    rw [List.flatMap_cons]
    have hself : [i].Sublist (T.place i) :=
      List.singleton_sublist.mpr (List.mem_append_right _ List.mem_cons_self)
    exact hself.append ih

/-! ## 3. Changes that only add -/

/-- What is new in a program accesses no array elements, new functions are those that rules put calls of
    in, and globals refer to no other instructions than before, but for new ones. -/
structure Modest (p q : Program) : Prop where
  kinds : ∀ i : InstrId, p.instrs.size ≤ i.index → (q.instr i).kind.accesses = false
  names : ∀ k : FuncId, p.functions.size ≤ k.index → (q.func k).name ∈ "" :: insertedCalls
  globals : ∀ (o : InstrId) g, (q.global g).uses (.instr o) = true →
    (p.global g).uses (.instr o) = true ∨ p.instrs.size ≤ o.index

theorem Modest.refl (p : Program) : p.Modest p where
  kinds i hi := by
    rw [instr_of_le hi]
    rfl
  names k hk := by
    rw [func_of_le hk]
    exact List.mem_cons_self
  globals _ _ h := .inl h

theorem Modest.add (h : p.Modest q) (made : InstrId) (hfunc : r.functions = q.functions)
    (hglobals : r.globals = q.globals) (hmade : (r.instr made).kind.accesses = false)
    (hold : ∀ i, i ≠ made → r.instr i = q.instr i) : p.Modest r where
  kinds i hi := by
    by_cases he : i = made
    · exact he ▸ hmade
    · rw [hold i he]
      exact h.kinds i hi
  names k hk := by
    rw [func, hfunc]
    exact h.names k hk
  globals o g huses := by
    rw [global, hglobals] at huses
    exact h.globals o g huses

theorem Modest.create (h : p.Modest q) (ty : Ty) (operands : List Value) :
    p.Modest (q.createInstr (.cast .inttoptr) ty operands).1 := by
  refine h.add ⟨q.instrs.size⟩ rfl rfl ?_ fun i hi => instr_createInstr_ne _ _ _ hi
  rw [instr_createInstr_new]
  rfl

theorem Modest.declare (h : p.Modest q) (hname : name ∈ insertedCalls) (sig : Signature) :
    p.Modest (q.ensureFunction name sig).1 := by
  unfold ensureFunction
  cases q.findFunction? name with
  | some f => exact h
  | none =>
    refine ⟨h.kinds, fun k hk => ?_, h.globals⟩
    have hpush := func_push q (Func.declare name sig []) k
    change ((q.pushFunction (Func.declare name sig [])).1.func k) = _ at hpush
    rw [hpush]
    split
    · exact List.mem_cons_of_mem _ hname
    · exact h.names k hk

theorem Modest.takeName (h : p.Modest q) (id answer : InstrId) : p.Modest (q.takeName id answer) where
  kinds i hi := by
    rw [kind_takeName]
    exact h.kinds i hi
  names := h.names
  globals := h.globals

theorem Modest.replaceUses {answer : InstrId} (h : p.Modest q) (id : InstrId)
    (hnew : p.instrs.size ≤ answer.index) : p.Modest (q.replaceUses (.instr id) (.instr answer)) where
  kinds i hi := by
    rw [kind_replaceUses]
    exact h.kinds i hi
  names := h.names
  globals o g huses := by
    rcases global_uses_replaceUses rfl huses with hbefore | hanswer
    · exact h.globals o g hbefore
    · obtain rfl : answer = o := by simpa [Value.mentions] using hanswer
      exact .inr hnew

theorem Underway.extends {T' : Traces} (h : Underway p {} id p T' q)
    (hmodest : p.Modest q) : p.Extends q where
  sound := h.sound
  instrs := h.grown
  functions := h.called
  func := h.known
  declared := hmodest.names
  listed b := by
    rw [h.listed b]
    exact T'.sublist_places _
  instr i hi := by
    obtain ⟨hkind, hty, hparent, herased⟩ := h.instr i hi
    exact ⟨hkind, hty, hparent, herased, (h.kept i hi).2.2⟩
  new i hi := ⟨hmodest.kinds i hi, fun k => h.new i k hi⟩
  globals := hmodest.globals

/-! ## 4. Instructions that are put in -/

theorem globals_insert {d : Edit.Draft} (h : Edit.insert place d p = .ok new r) :
    r.globals = p.globals :=
  ((sameTop_insert place d).keeps p new r h).2

theorem Underway.callBeside {q₁ : Program} {f : FuncId} {sig : Signature}
    (h : Underway p T id q₀ T' q) (hmodest : q₀.Modest q) (hid : id ∈ (p.block b).instrs)
    (hf : q.ensureFunction name sig = (q₁, f)) (hname : name ∈ insertedCalls) (args : List Value)
    (hplace : place = .before id ∧ around = [⟨q.instrs.size⟩, id] ∨
      place = .after id ∧ around = [id, ⟨q.instrs.size⟩])
    (helsewhere : T'.Elsewhere T'' id) (hturned : T''.turned = T'.turned)
    (haround : T''.place id = T'.front id ++ (around ++ T'.back id)) :
    ∃ r, Edit.insert place (q₁.draftCall f args none) q₁ = .ok ⟨q.instrs.size⟩ r ∧
      Underway p T id q₀ T'' r ∧ q₀.Modest r ∧ r.CallsWith ⟨q.instrs.size⟩ name args ∧
      (r.instr ⟨q.instrs.size⟩).parent = some b ∧
      (∀ i, i ≠ ⟨q.instrs.size⟩ → r.instr i = q.instr i) ∧ r.instrs.size = q.instrs.size + 1 := by
  obtain ⟨hdeclared, hcalled, hinstrs⟩ := h.declare name sig
  have hmodest' := hmodest.declare hname sig
  rw [hf] at hdeclared hcalled hinstrs hmodest'
  dsimp only at hdeclared hcalled hinstrs hmodest'
  have hsize : q₁.instrs.size = q.instrs.size := congrArg Array.size hinstrs
  have hsame : ∀ i, q₁.instr i = q.instr i := fun i => by rw [instr, instr, hinstrs]
  rw [← hsize] at hplace ⊢
  have hcalls : ∀ k, (⟨(q₁.draftCall f args none).kind, (q₁.draftCall f args none).ty,
      (q₁.draftCall f args none).operands, (q₁.draftCall f args none).name, some b,
      false⟩ : Instr).calledFunction? = some k ↔ f = k := by
    intro k
    simp [draftCall, Instr.calledFunction?, Instr.callee?, Instr.isCall, Value.toFunc?]
  obtain ⟨r, hr, hu, hmade, hold, hgrown, hfunctions⟩ := hdeclared.insert hid
    (q₁.draftCall f args none) (fun k hk => by rw [← (hcalls k).mp hk, hcalled]; exact hname)
    hplace helsewhere hturned haround
  refine ⟨r, hr, hu, hmodest'.add _ hfunctions (globals_insert hr) (by rw [hmade]; rfl) hold,
    ⟨by rw [hmade], ⟨f, by rw [hmade]; exact (hcalls f).mpr rfl, ?_⟩, .func f, by rw [hmade]; rfl⟩,
    by rw [hmade], fun i hi => (hold i hi).trans (hsame i), hgrown⟩
  rw [func, hfunctions]
  exact hcalled

theorem instr_answered {i : InstrId} (id answer : InstrId) (hlive : (p.instr i).erased = false) :
    ∃ name, ((p.takeName id answer).replaceUses (.instr id) (.instr answer)).instr i =
      { p.instr i with
        name := name
        operands := (p.instr i).operands.map (Value.turn id (some answer)) } := by
  obtain ⟨name, hn⟩ := instr_takeName p id answer i
  refine ⟨name, ?_⟩
  rw [instr_replaceUses_live (by rw [hn]; exact hlive), hn]
  rfl

theorem CallsWith.same {i : InstrId} {name : String} {args : List Value} (h : p.CallsWith i name args)
    (hinstr : r.instr i = p.instr i) (hfunctions : r.functions = p.functions) :
    r.CallsWith i name args := by
  obtain ⟨k, hk, hname⟩ := h.calls
  refine ⟨by rw [hinstr]; exact h.live, ⟨k, by rw [hinstr]; exact hk, ?_⟩, by rw [hinstr]; exact h.operands⟩
  rw [func, hfunctions]
  exact hname

theorem CallsWith.answered {i answer : InstrId} {name : String} {args : List Value}
    (h : p.CallsWith i name args) :
    ((p.takeName id answer).replaceUses (.instr id) (.instr answer)).CallsWith i name
      (args.map (Value.turn id (some answer))) := by
  obtain ⟨n, hn⟩ := instr_answered id answer h.live
  obtain ⟨k, hk, hname⟩ := h.calls
  obtain ⟨callee, hcallee⟩ := h.operands
  refine ⟨by rw [hn]; exact h.live, ⟨k, ?_, hname⟩, callee.turn id (some answer), ?_⟩
  · have hreading : Instr.SameReading (p.instr i)
        (((p.takeName id answer).replaceUses (.instr id) (.instr answer)).instr i) := by
      rw [hn]
      exact .substitute (v := .instr answer) rfl rfl (.inr ⟨rfl, rfl⟩)
    exact hreading.callee.trans hk
  · rw [hn]
    change (p.instr i).operands.map _ = _
    rw [hcallee, List.map_append]
    rfl

end Program

end QirProfile
