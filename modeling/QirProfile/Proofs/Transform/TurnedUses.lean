import QirProfile.Proofs.Transform.Rounds

/-!
# What uses are turned to

Where an allocation or a comparison is accepted, its uses are turned at once, to the address or to the read
of the result. So later trials of a round see other operands than stand in the program in the beginning.
-/

namespace QirProfile

/-! ## 1. Operands -/

namespace Value

variable {id i a : InstrId} {answer : Option InstrId} {ts ts' : List (InstrId × InstrId)} {v : Value}

theorem turn_cast (op : CastOp) (v : Value) (ty : Ty) :
    turn id answer (.cast op v ty) = .cast op (turn id answer v) ty := by
  cases answer with
  | none => rfl
  | some a =>
    have hne : Value.cast op v ty ≠ .instr id := by simp
    change substitute _ _ _ = .cast op (substitute _ _ v) ty
    conv_lhs => unfold substitute
    rw [if_neg hne]

/-- An operand when the uses of some instructions have been turned, one after the other. -/
def turnAll (ts : List (InstrId × InstrId)) (v : Value) : Value :=
  ts.foldl (fun v t => turn t.1 (some t.2) v) v

theorem turnAll_append (ts ts' : List (InstrId × InstrId)) (v : Value) :
    turnAll (ts ++ ts') v = turnAll ts' (turnAll ts v) :=
  List.foldl_append

theorem turnAll_answer (id : InstrId) (answer : Option InstrId) (v : Value) :
    turnAll (answer.toList.map (id, ·)) v = turn id answer v := by
  cases answer <;> rfl

theorem turnAll_int (bits : Nat) (n : Int) : turnAll ts (.int bits n) = .int bits n := by
  induction ts with
  | nil => rfl
  | cons t ts ih => exact (congrArg (turnAll ts) (turn_int bits n)).trans ih

theorem turnAll_cast (op : CastOp) (v : Value) (ty : Ty) :
    turnAll ts (.cast op v ty) = .cast op (turnAll ts v) ty := by
  induction ts generalizing v with
  | nil => rfl
  | cons t ts ih => exact (congrArg (turnAll ts) (turn_cast op v ty)).trans (ih _)

theorem turnAll_of_not_mem (h : i ∉ ts.map (·.1)) : turnAll ts (.instr i) = .instr i := by
  induction ts with
  | nil => rfl
  | cons t ts ih =>
    obtain ⟨hne, hrest⟩ := not_or.mp (mt List.mem_cons.mpr h)
    exact (congrArg (turnAll ts) (turn_instr_of_ne hne)).trans (ih hrest)

theorem turnAll_of_mem (hts : ∀ t ∈ ts, t.2 ∉ ts.map (·.1)) (h : i ∈ ts.map (·.1)) :
    ∃ a, (i, a) ∈ ts ∧ turnAll ts (.instr i) = .instr a := by
  induction ts with
  | nil => cases h
  | cons t ts ih =>
    obtain ⟨ht, hts⟩ := List.forall_mem_cons.mp hts
    by_cases hi : i = t.1
    · refine ⟨t.2, hi ▸ List.mem_cons_self, ?_⟩
      subst hi
      change turnAll ts (turn t.1 (some t.2) (.instr t.1)) = _
      rw [turn_self]
      exact turnAll_of_not_mem fun hmem => ht (List.mem_cons_of_mem _ hmem)
    · obtain ⟨a, ha, hsame⟩ := ih (fun x hx hmem => hts x hx (List.mem_cons_of_mem _ hmem))
        ((List.mem_cons.mp h).resolve_left hi)
      exact ⟨a, List.mem_cons_of_mem t ha, (congrArg (turnAll ts) (turn_instr_of_ne hi)).trans hsame⟩

end Value

/-! ## 2. Programs -/

namespace Program

open Value (turnAll)

variable {p q r : Program} {ts ts' : List (InstrId × InstrId)} {id i : InstrId} {v w : Value}
  {name : String} {args : List Value}

/-- Functions whose calls have their uses turned. -/
def turnedCalls : List String :=
  ["__quantum__rt__qubit_allocate", "__quantum__rt__qubit_allocate_array", "__quantum__rt__result_equal"]

/-- A program has been added to, and uses have been turned, those of calls of some functions, to new
    instructions that call at most what rules put calls of in. -/
structure Turned (ts : List (InstrId × InstrId)) (p q : Program) : Prop where
  grown : p.Extends q
  operands : ∀ i, (p.instr i).erased = false →
    (q.instr i).operands = (p.instr i).operands.map (turnAll ts)
  olds : ∀ t ∈ ts, ∃ name ∈ turnedCalls, q.Calls t.1 name
  news : ∀ t ∈ ts, (q.instr t.2).erased = false ∧ ∀ name ∉ "" :: insertedCalls, ¬ q.Calls t.2 name

theorem Turned.refl (hp : p.Sound) : Turned [] p p where
  grown := .refl hp
  operands _ _ := (List.map_id _).symm
  olds := nofun
  news := nofun

theorem not_inserted_of_turned : ∀ name ∈ turnedCalls, name ∉ "" :: insertedCalls := by decide

theorem Turned.trans (h : Turned ts p q) (h' : Turned ts' q r) : Turned (ts ++ ts') p r where
  grown := h.grown.trans h'.grown
  operands i hi := by
    rw [h'.operands i (h.grown.live hi), h.operands i hi, List.map_map]
    exact List.map_congr_left fun v _ => (Value.turnAll_append ts ts' v).symm
  olds t ht := by
    rcases List.mem_append.mp ht with ht | ht
    · obtain ⟨name, hname, hcalls⟩ := h.olds t ht
      exact ⟨name, hname, (h'.grown.calls_iff hcalls.lt (not_inserted_of_turned name hname)).mpr hcalls⟩
    · exact h'.olds t ht
  news t ht := by
    rcases List.mem_append.mp ht with ht | ht
    · obtain ⟨hlive, hnone⟩ := h.news t ht
      refine ⟨h'.grown.live hlive, fun name hname hcalls => hnone name hname ?_⟩
      exact (h'.grown.calls_iff (instr_lt_of_live hlive) hname).mp hcalls
    · exact h'.news t ht

theorem Turned.apart (h : Turned ts p q) : ∀ t ∈ ts, t.2 ∉ ts.map (·.1) := by
  intro t ht hmem
  obtain ⟨x, hx, heq⟩ := List.mem_map.mp hmem
  obtain ⟨name, hname, hcalls⟩ := h.olds x hx
  exact (h.news t ht).2 name (not_inserted_of_turned name hname) (heq ▸ hcalls)

theorem Turned.not_mem (h : Turned ts p q) (hi : ∀ name ∈ turnedCalls, ¬ q.Calls i name) :
    i ∉ ts.map (·.1) := by
  intro hmem
  obtain ⟨t, ht, rfl⟩ := List.mem_map.mp hmem
  obtain ⟨name, hname, hcalls⟩ := h.olds t ht
  exact hi name hname hcalls

theorem Turned.not_mem_of_calls (h : Turned ts p q) (hcalls : q.Calls i name) (hname : name ∉ turnedCalls) :
    i ∉ ts.map (·.1) :=
  h.not_mem fun _ hother hcalls' => hname (hcalls.unique hcalls' ▸ hother)

theorem Turned.calls_iff (h : Turned ts p q) (hi : (p.instr i).erased = false)
    (hname : name ∉ "" :: insertedCalls) : q.Calls i name ↔ p.Calls i name :=
  h.grown.calls_iff (instr_lt_of_live hi) hname

theorem Turned.callsWith (h : Turned ts p q) (hname : name ≠ "")
    (hcall : p.CallsWith i name args) : q.CallsWith i name (args.map (turnAll ts)) := by
  obtain ⟨callee, hcallee⟩ := hcall.operands
  refine ⟨h.grown.live hcall.live, h.grown.calls hname hcall.calls, turnAll ts callee, ?_⟩
  rw [h.operands i hcall.live, hcallee, List.map_append, List.map_singleton]

theorem Turned.callsWith_back (h : Turned ts p q) (hname : name ∉ "" :: insertedCalls)
    (hi : (p.instr i).erased = false) (hcall : q.CallsWith i name args) :
    ∃ args', p.CallsWith i name args' ∧ args = args'.map (turnAll ts) := by
  obtain ⟨callee, hcallee⟩ := hcall.operands
  rw [h.operands i hi] at hcallee
  obtain ⟨args', rest, hsplit, hargs, hrest⟩ := List.map_eq_append_iff.mp hcallee
  obtain ⟨callee', rest', rfl, -, hnil⟩ := List.map_eq_cons_iff.mp hrest
  obtain rfl := List.map_eq_nil_iff.mp hnil
  exact ⟨args', ⟨hi, (h.calls_iff hi hname).mp hcall.calls, callee', hsplit⟩, hargs.symm⟩

theorem Turned.isCast (h : Turned ts p q) {op : CastOp} (hv : p.isCast op v = true) :
    q.isCast op (turnAll ts v) = true ∧ q.operandsOf (turnAll ts v) = (p.operandsOf v).map (turnAll ts) := by
  cases v with
  | cast o v ty =>
    rw [Value.turnAll_cast]
    exact ⟨hv, rfl⟩
  | instr i =>
    have hlive : (p.instr i).erased = false ∧ (p.instr i).kind = .cast op := by
      cases he : (p.instr i).erased <;>
        simp [Program.isCast, liveKind?, Value.toInstr?, he] at hv ⊢
      exact hv
    obtain ⟨hlive, hkind⟩ := hlive
    have hkind' := (h.grown.instr i (instr_lt_of_live hlive)).1.trans hkind
    rw [Value.turnAll_of_not_mem (h.not_mem fun name _ hcalls => hcalls.not_cast hkind')]
    refine ⟨?_, h.operands i hlive⟩
    simp [Program.isCast, liveKind?, Value.toInstr?, h.grown.live hlive, hkind']
  | _ => cases hv

theorem Turned.readsElement (h : Turned ts p q) {bits : Nat} {index : Int} (hlive : (p.instr i).erased = false)
    (hreads : p.ReadsElement i v bits index) : q.ReadsElement i (turnAll ts v) bits index := by
  obtain ⟨align, hload⟩ := hreads.load
  obtain ⟨pointer, element, hoperands, hcast, helement, hcall⟩ := hreads.path
  obtain ⟨hcast', hpath⟩ := h.isCast hcast
  have hcalls := h.callsWith (by decide) hcall
  refine ⟨⟨align, (h.grown.instr i (instr_lt_of_live hlive)).1.trans hload⟩, turnAll ts pointer, element,
    ?_, hcast', ?_, ?_⟩
  · rw [h.operands i hlive, hoperands]
    rfl
  · rw [hpath, helement, List.map_singleton,
      Value.turnAll_of_not_mem (h.not_mem_of_calls hcalls.calls (by decide))]
  · rw [List.map_cons, List.map_singleton, Value.turnAll_int] at hcalls
    exact hcalls

theorem ReadsElement.lt {bits : Nat} {index : Int} (h : p.ReadsElement i v bits index) :
    i.index < p.instrs.size := by
  obtain ⟨align, hload⟩ := h.load
  by_contra hge
  rw [instr_of_le (Nat.not_lt.mp hge)] at hload
  cases hload

theorem ReadsElement.unique {bits bits' : Nat} {index index' : Int} (h : p.ReadsElement i v bits index)
    (h' : p.ReadsElement i w bits' index') : v = w ∧ bits = bits' ∧ index = index' := by
  obtain ⟨pointer, element, hoperands, -, helement, hcall⟩ := h.path
  obtain ⟨pointer', element', hoperands', -, helement', hcall'⟩ := h'.path
  rw [hoperands] at hoperands'
  obtain rfl := (List.cons.inj hoperands').1
  rw [helement] at helement'
  obtain rfl := Value.instr.inj (List.cons.inj helement').1
  obtain ⟨rfl, hargs⟩ := List.cons.inj (hcall.unique hcall').2
  obtain ⟨rfl, rfl⟩ := Value.int.inj (List.cons.inj hargs).1
  exact ⟨rfl, rfl, rfl⟩

theorem Turned.allocatesQubits (h : Turned ts p q) {count : Nat} (hcall : p.AllocatesQubits i count) :
    q.AllocatesQubits i count := by
  cases hcall with
  | one hcall => exact .one (h.callsWith (by decide) hcall)
  | array hsize hcall =>
    have hcalls := h.callsWith (by decide) hcall
    rw [List.map_singleton, Value.turnAll_int] at hcalls
    exact .array hsize hcalls

theorem AllocatesQubits.unique {m n : Nat} (h : p.AllocatesQubits i m) (h' : p.AllocatesQubits i n) :
    m = n := by
  cases h with
  | one hcall =>
    cases h' with
    | one => rfl
    | array _ hcall' => exact absurd (hcall.unique hcall').1 (by decide)
  | array hsize hcall =>
    cases h' with
    | one hcall' => exact absurd (hcall.unique hcall').1 (by decide)
    | array hsize' hcall' =>
      obtain ⟨-, rfl⟩ := Value.int.inj (List.cons.inj (hcall.unique hcall').2).1
      omega

end Program

/-! ## 3. Rounds -/

namespace Replacing

open Program (turnedCalls)

variable {settings : RuleSettings} {s s' : RuleState Addresses} {id : InstrId}
  {heir answer : Option InstrId} {along : List InstrId}

theorem Work.answers (h : Work settings id s s' heir answer) : ∀ a, answer = some a →
    (∃ name ∈ turnedCalls, s.program.Calls id name) ∧ (s'.program.instr a).erased = false ∧
      ∀ name ∉ "" :: Program.insertedCalls, ¬ s'.program.Calls a name := by
  cases h with
  | removed | released | read | measured => exact fun a ha => nomatch ha
  | placed hcall _ _ _ hpointer =>
    rintro a ⟨⟩
    have hguest := guest_of_pointer hpointer
    refine ⟨?_, hguest.live, fun name _ hcalls => hcalls.not_cast hguest.kind⟩
    cases hcall with
    | one hcall => exact ⟨_, by decide, hcall.calls⟩
    | array _ hcall => exact ⟨_, by decide, hcall.calls⟩
  | compared hcompares _ hread _ htells =>
    rintro a ⟨⟩
    refine ⟨⟨_, by decide, hcompares.calls⟩, ?_⟩
    cases htells with
    | same =>
      refine ⟨hread.live, fun name hname hcalls => ?_⟩
      obtain rfl := hread.calls.unique hcalls
      exact absurd (by decide) hname
    | opposite hkind _ hlive _ =>
      refine ⟨hlive, fun name _ hcalls => ?_⟩
      rcases hcalls.kind with ⟨marker, hcall⟩ | hinvoke
      · exact nomatch hcall.symm.trans hkind
      · exact nomatch hinvoke.symm.trans hkind

theorem Work.turns (h : Work settings id s s' heir answer)
    (hcalls : ∃ name ∈ turnedCalls, s.program.Calls id name) : ∃ a, answer = some a := by
  obtain ⟨name, hname, hcalls⟩ := hcalls
  cases h with
  | removed hremoved hother =>
    obtain rfl := hcalls.unique hother
    have hkept : ∀ n ∈ turnedCalls, n ∉ referenceCounting ++ aliasCounting ++ stringSupport := by decide
    exact absurd hremoved (not_mem_removed (hkept _ hname))
  | released hcall =>
    rcases hcall with hcall | hcall <;> obtain rfl := hcalls.unique hcall.calls <;>
      exact absurd hname (by decide)
  | read hreads =>
    obtain ⟨align, hload⟩ := hreads.load
    exact absurd hload hcalls.not_load
  | measured hcall =>
    obtain rfl := hcalls.unique hcall.calls
    exact absurd hname (by decide)
  | placed => exact ⟨_, rfl⟩
  | compared => exact ⟨_, rfl⟩

theorem Treated.turned (h : Treated settings id s s' heir answer along) :
    Program.Turned (answer.toList.map (id, ·)) s.program s'.program where
  grown := h.grown
  operands i hi := by
    rw [h.operands i hi]
    exact List.map_congr_left fun v _ => (Value.turnAll_answer id answer v).symm
  olds t ht := by
    obtain ⟨a, ha, rfl⟩ := List.mem_map.mp ht
    obtain ⟨⟨name, hname, hcalls⟩, -⟩ := h.work.answers a (Option.mem_toList.mp ha)
    exact ⟨name, hname,
      (h.grown.calls_iff hcalls.lt (Program.not_inserted_of_turned name hname)).mpr hcalls⟩
  news t ht := by
    obtain ⟨a, ha, rfl⟩ := List.mem_map.mp ht
    exact (h.work.answers a (Option.mem_toList.mp ha)).2

end Replacing

namespace Transform

open Replacing
open Program (Turned turnedCalls)

variable {settings : RuleSettings} {s s' : RuleState Addresses} {id : InstrId} {ids xs ys : List InstrId}
  {ts : List (InstrId × InstrId)}

/-- The uses that the trials of a round turn, in order. -/
inductive Turns (settings : RuleSettings) :
    RuleState Addresses → List InstrId → List (InstrId × InstrId) → Prop where
  | nil (s : RuleState Addresses) : Turns settings s [] []
  | declined {s : RuleState Addresses} {id : InstrId} {ids : List InstrId} {ts : List (InstrId × InstrId)}
      (h : applyFirst settings.rules id s = .ok false s) (hrest : Turns settings s ids ts) :
      Turns settings s (id :: ids) ts
  | accepted {s s' : RuleState Addresses} {id : InstrId} {ids : List InstrId}
      {heir answer : Option InstrId} {along : List InstrId} {ts : List (InstrId × InstrId)}
      (h : applyFirst settings.rules id s = .ok true s')
      (hwork : Treated settings id s s' heir answer along) (hrest : Turns settings s' ids ts) :
      Turns settings s (id :: ids) (answer.toList.map (id, ·) ++ ts)

theorem Attends.turns (hs : s.program.Sound) (h : Attends settings s ids) : ∃ ts, Turns settings s ids ts := by
  induction ids generalizing s with
  | nil => exact ⟨[], .nil s⟩
  | cons id ids ih =>
    have hhead := h.head hs
    obtain ⟨ts, hts⟩ := ih (hhead.extends hs).sound h.2.2
    generalize visit settings.rules s id = s' at hhead hts
    cases hhead with
    | declined hdeclined => exact ⟨ts, .declined hdeclined hts⟩
    | accepted haccepted hwork => exact ⟨_, .accepted haccepted hwork hts⟩

theorem Turns.turned (h : Turns settings s ids ts) (hs : s.program.Sound) :
    Turned ts s.program (visitAll settings.rules s ids).program := by
  induction h with
  | nil => exact .refl hs
  | declined h _ ih =>
    rw [visitAll_cons, visit_eq h]
    exact ih hs
  | accepted h hwork _ ih =>
    rw [visitAll_cons, visit_eq h]
    exact hwork.turned.trans (ih hwork.grown.sound)

theorem Turns.split (h : Turns settings s (xs ++ ys) ts) :
    ∃ us vs, ts = us ++ vs ∧ Turns settings s xs us ∧ Turns settings (visitAll settings.rules s xs) ys vs := by
  induction xs generalizing s ts with
  | nil => exact ⟨[], ts, rfl, .nil s, h⟩
  | cons id xs ih =>
    cases h with
    | declined h hrest =>
      obtain ⟨us, vs, rfl, hus, hvs⟩ := ih hrest
      refine ⟨us, vs, rfl, .declined h hus, ?_⟩
      rw [visitAll_cons, visit_eq h]
      exact hvs
    | accepted h hwork hrest =>
      obtain ⟨us, vs, rfl, hus, hvs⟩ := ih hrest
      refine ⟨_, vs, (List.append_assoc _ us vs).symm, .accepted h hwork hus, ?_⟩
      rw [visitAll_cons, visit_eq h]
      exact hvs

/-- Every turn was made by one visit. -/
theorem Turns.origin (h : Turns settings s ids ts) {t : InstrId × InstrId} (ht : t ∈ ts) :
    ∃ xs ys us vs heir along, ids = xs ++ t.1 :: ys ∧ ts = us ++ t :: vs ∧ Turns settings s xs us ∧
      Treated settings t.1 (visitAll settings.rules s xs) (visitAll settings.rules s (xs ++ [t.1])) heir
        (some t.2) along ∧ Turns settings (visitAll settings.rules s (xs ++ [t.1])) ys vs := by
  induction h with
  | nil => cases ht
  | @declined s id ids ts h _ ih =>
    obtain ⟨xs, ys, us, vs, heir, along, rfl, hts, hus, hwork⟩ := ih ht
    refine ⟨id :: xs, ys, us, vs, heir, along, rfl, hts, .declined h hus, ?_⟩
    rw [List.cons_append, visitAll_cons, visitAll_cons, visit_eq h]
    exact hwork
  | @accepted s s' id ids heir answer along ts h hwork hrest ih =>
    rcases List.mem_append.mp ht with ht | ht
    · obtain ⟨a, ha, rfl⟩ := List.mem_map.mp ht
      obtain rfl := Option.mem_toList.mp ha
      refine ⟨[], ids, [], ts, heir, along, rfl, rfl, .nil s, ?_⟩
      rw [List.nil_append, visitAll_cons, visit_eq h]
      exact ⟨hwork, hrest⟩
    · obtain ⟨xs, ys, us, vs, heir', along', rfl, rfl, hus, hlater⟩ := ih ht
      refine ⟨id :: xs, ys, _, vs, heir', along', rfl, (List.append_assoc _ us (t :: vs)).symm,
        .accepted h hwork hus, ?_⟩
      rw [List.cons_append, visitAll_cons, visitAll_cons, visit_eq h]
      exact hlater

theorem Turns.mem_olds (h : Turns settings s (xs ++ id :: ys) ts)
    (haccepts : accepts settings.rules (visitAll settings.rules s xs) id = true)
    (hcalls : ∃ name ∈ turnedCalls, (visitAll settings.rules s xs).program.Calls id name) :
    id ∈ ts.map (·.1) := by
  obtain ⟨us, vs, rfl, -, hvs⟩ := h.split
  rw [List.map_append]
  refine List.mem_append_right _ ?_
  generalize visitAll settings.rules s xs = s' at haccepts hcalls hvs
  cases hvs with
  | declined h =>
    rw [accepts_of_declined h] at haccepts
    cases haccepts
  | accepted h hwork hrest =>
    obtain ⟨a, rfl⟩ := hwork.work.turns hcalls
    exact List.mem_cons_self

end Transform

end QirProfile
