import QirProfile.Proofs.Transform.ElementAccesses
import QirProfile.Proofs.Transform.HandedOut

/-!
# Comparisons of results

A comparison of a result with one of the two canonical ones gives way to a read of the result. The fetch of
the canonical result goes along with the comparison if nothing else needs it any more, and that is asked
where the comparison is accepted. This is about what is left in the end.
-/

namespace QirProfile

/-! ## 1. Operands -/

namespace Value

variable {id i a : InstrId} {answer : Option InstrId} {ts : List (InstrId × InstrId)} {v : Value}

theorem turnAll_of_not_mentioned (h : ∀ t ∈ ts, mentions (.instr t.1) v = false) : turnAll ts v = v := by
  induction ts with
  | nil => rfl
  | cons t ts ih =>
    obtain ⟨ht, hrest⟩ := List.forall_mem_cons.mp h
    have hsame : turn t.1 (some t.2) v = v := substitute_of_not_mentions v ht
    exact (congrArg (turnAll ts) hsame).trans (ih hrest)

theorem mentions_turnAll (h : mentions (.instr i) (turnAll ts v) = true) :
    mentions (.instr i) v = true ∨ ∃ t ∈ ts, t.2 = i := by
  induction ts generalizing v with
  | nil => exact .inl h
  | cons t ts ih =>
    rcases ih h with hv | ⟨x, hx, hi⟩
    · refine (mentions_substitute rfl v hv).imp_right fun ht => ⟨t, List.mem_cons_self, ?_⟩
      simpa [mentions] using ht
    · exact .inr ⟨x, List.mem_cons_of_mem t hx, hi⟩

theorem mentions_turnAll_of_not_mem (hv : mentions (.instr i) v = true) (hi : i ∉ ts.map (·.1)) :
    mentions (.instr i) (turnAll ts v) = true := by
  induction ts generalizing v with
  | nil => exact hv
  | cons t ts ih =>
    obtain ⟨hne, hrest⟩ := not_or.mp (mt List.mem_cons.mpr hi)
    exact ih (mentions_substitute_other hne v hv) hrest

theorem eq_of_turn (h : turn id answer v = .instr i) : v = .instr i ∨ answer = some i := by
  cases answer with
  | none => exact .inl h
  | some a =>
    change substitute (.instr id) (.instr a) v = .instr i at h
    by_cases hv : v = .instr id
    · rw [hv] at h
      exact .inr (congrArg some (Value.instr.inj ((turn_self id a).symm.trans h)))
    · left
      cases v <;> unfold substitute at h <;> rw [if_neg hv] at h <;> first | exact h | cases h

theorem eq_of_turnAll (h : turnAll ts v = .instr i) (hi : ∀ t ∈ ts, t.2 ≠ i) : v = .instr i := by
  induction ts generalizing v with
  | nil => exact h
  | cons t ts ih =>
    obtain ⟨ht, hrest⟩ := List.forall_mem_cons.mp hi
    exact (eq_of_turn (ih h hrest)).resolve_right fun ha => ht (Option.some.inj ha)

end Value

namespace Program

open Value (mentions turnAll)

variable {p q : Program} {rs : List Replacement} {ts : List (InstrId × InstrId)} {id fetch i : InstrId}
  {result v : Value} {negated : Bool} {name : String}

theorem handOver_of_not_mentioned (h : ∀ r ∈ rs, mentions (.instr r.old) v = false) :
    p.handOver rs v = v := by
  induction rs with
  | nil => rfl
  | cons r rs ih =>
    obtain ⟨hr, hrest⟩ := List.forall_mem_cons.mp h
    unfold handOver at ih ⊢
    rw [List.foldl_cons, Value.substitute_of_not_mentions v hr]
    exact ih hrest

/-! ## 2. Comparisons -/

theorem canonicalFetch_ne (negated : Bool) : canonicalFetch negated ≠ "" := by
  cases negated <;> decide

theorem canonicalFetch_apart (negated : Bool) :
    canonicalFetch negated ∉ "" :: insertedCalls ∧ canonicalFetch negated ∉ turnedCalls := by
  cases negated <;> decide

theorem Compares.unique {other : InstrId} {result' : Value} {negated' : Bool}
    (h : p.Compares id result fetch negated) (h' : p.Compares id result' other negated') :
    fetch = other ∨ result' = .instr fetch := by
  rcases h.sides with hsides | hsides <;> rcases h'.sides with hsides' | hsides' <;>
    obtain ⟨-, hargs⟩ := hsides.unique hsides' <;> obtain ⟨hfirst, hrest⟩ := List.cons.inj hargs <;>
    have hsecond := (List.cons.inj hrest).1
  · exact .inl (Value.instr.inj hsecond)
  · exact .inr hsecond.symm
  · exact .inr hfirst.symm
  · exact .inl (Value.instr.inj hfirst)

theorem Turned.compares (h : Turned ts p q) (hcompares : p.Compares id result fetch negated) :
    q.Compares id (turnAll ts result) fetch negated := by
  have hcanonical := h.callsWith (canonicalFetch_ne negated) hcompares.canonical
  have hfetch : turnAll ts (.instr fetch) = .instr fetch :=
    Value.turnAll_of_not_mem (h.not_mem_of_calls hcanonical.calls (canonicalFetch_apart negated).2)
  refine ⟨hcanonical, hcompares.sides.imp (fun hcall => ?_) fun hcall => ?_⟩
  all_goals
    have hcalls := h.callsWith (by decide) hcall
    rw [List.map_cons, List.map_singleton, hfetch] at hcalls
    exact hcalls

theorem Turned.fetch_ne (h : Turned ts p q) (hcalls : q.Calls fetch (canonicalFetch negated)) :
    ∀ t ∈ ts, t.2 ≠ fetch := by
  intro t ht heq
  exact (h.news t ht).2 _ (canonicalFetch_apart negated).1 (heq ▸ hcalls)

theorem Turned.compares_back (h : Turned ts p q) (hlive : (p.instr id).erased = false)
    (hcompares : q.Compares id result fetch negated) :
    ∃ result₀, p.Compares id result₀ fetch negated ∧ result = turnAll ts result₀ := by
  have hcalls := hcompares.canonical.calls
  have hname := (canonicalFetch_apart negated).1
  have hlt : fetch.index < p.instrs.size :=
    h.grown.old_of_calls hcalls fun hmem => hname (List.mem_cons_of_mem _ hmem)
  have hfetch : (p.instr fetch).erased = false :=
    (h.grown.instr fetch hlt).2.2.2.1.symm.trans hcompares.canonical.live
  obtain ⟨args, hcanonical, hnil⟩ :=
    h.callsWith_back hname hfetch hcompares.canonical
  obtain rfl := List.map_eq_nil_iff.mp hnil.symm
  have hsame : ∀ v, turnAll ts v = .instr fetch → v = .instr fetch :=
    fun v hv => Value.eq_of_turnAll hv (h.fetch_ne hcalls)
  rcases hcompares.sides with hcall | hcall <;>
    obtain ⟨args, hcall', hargs⟩ := h.callsWith_back (by decide) hlive hcall <;>
    obtain ⟨v, vs, rfl, hv, hvs⟩ := List.map_eq_cons_iff.mp hargs.symm <;>
    obtain ⟨w, ws, rfl, hw, hws⟩ := List.map_eq_cons_iff.mp hvs <;>
    obtain rfl := List.map_eq_nil_iff.mp hws
  · obtain rfl := hsame w hw
    exact ⟨v, ⟨hcanonical, .inl hcall'⟩, hv.symm⟩
  · obtain rfl := hsame v hv
    exact ⟨w, ⟨hcanonical, .inr hcall'⟩, hw.symm⟩

/-- A read of a result answers for a comparison, where operands have been rewritten. -/
structure ReadFor (p : Program) (σ : Value → Value) (id : InstrId) (result : Value) (negated : Bool)
    (read answer : InstrId) : Prop where
  given : σ (.instr id) = .instr answer
  calls : p.CallsWith read "__quantum__qis__read_result__body" [σ result]
  stands : (p.instr read).parent.isSome = true
  tells : p.Tells read negated answer

theorem Tells.rewritten {read answer : InstrId} {τ : Value → Value} (h : p.Tells read negated answer)
    (hread : τ (.instr read) = .instr read) (hconst : ∀ bits n, τ (.ofInt bits n) = .ofInt bits n)
    (hkept : (p.instr answer).erased = false → (p.instr answer).parent.isSome = true →
      (q.instr answer).erased = false ∧ (q.instr answer).parent = (p.instr answer).parent ∧
        (q.instr answer).kind = (p.instr answer).kind ∧
          (q.instr answer).operands = (p.instr answer).operands.map τ) : q.Tells read negated answer := by
  cases h with
  | same => exact .same
  | @opposite _ bits hkind hoperands hlive hattached =>
    obtain ⟨hlive', hparent, hkind', hoperands'⟩ := hkept hlive hattached
    refine @Tells.opposite _ _ _ bits (hkind'.trans hkind) ?_ hlive' (hparent ▸ hattached)
    rw [hoperands', hoperands, List.map_cons, List.map_singleton, hread, hconst]

theorem Turned.tells (h : Turned ts p q) {read answer : InstrId} (htells : p.Tells read negated answer)
    (hcalls : p.Calls read "__quantum__qis__read_result__body") : q.Tells read negated answer := by
  refine htells.rewritten (τ := turnAll ts) ?_ (fun bits n => Value.turnAll_int bits _) fun hlive _ => ?_
  · exact Value.turnAll_of_not_mem (h.not_mem_of_calls (h.grown.calls (by decide) hcalls) (by decide))
  · obtain ⟨hkind, -, hparent, herased, -⟩ := h.grown.instr answer (instr_lt_of_live hlive)
    exact ⟨herased.trans hlive, hparent, hkind, h.operands answer hlive⟩

theorem Turned.uses (h : Turned ts p q) (hlive : (p.instr i).erased = false) (hfetch : fetch ∉ ts.map (·.1))
    (huses : (p.instr i).uses (.instr fetch) = true) : (q.instr i).uses (.instr fetch) = true := by
  obtain ⟨v, hv, hmentions⟩ := Instr.uses_iff.mp huses
  refine Instr.uses_iff.mpr ⟨turnAll ts v, ?_, Value.mentions_turnAll_of_not_mem hmentions hfetch⟩
  rw [h.operands i hlive]
  exact List.mem_map_of_mem hv

theorem Turned.uses_back (h : Turned ts p q) (hlive : (p.instr i).erased = false)
    (hfetch : ∀ t ∈ ts, t.2 ≠ fetch) (huses : (q.instr i).uses (.instr fetch) = true) :
    (p.instr i).uses (.instr fetch) = true := by
  obtain ⟨w, hw, hmentions⟩ := Instr.uses_iff.mp huses
  rw [h.operands i hlive] at hw
  obtain ⟨v, hv, rfl⟩ := List.mem_map.mp hw
  refine Instr.uses_iff.mpr ⟨v, hv, (Value.mentions_turnAll hmentions).resolve_right fun hnew => ?_⟩
  obtain ⟨t, ht, heq⟩ := hnew
  exact hfetch t ht heq

/-- Rules never put such an instruction in: it accesses the element of an array, or calls another
    function. -/
def NotPutIn (p : Program) (i : InstrId) : Prop :=
  (p.instr i).kind.accesses = true ∨ ∃ name ∉ "" :: insertedCalls, p.Calls i name

theorem Calls.notPutIn (h : p.Calls i name) (hname : name ∉ "" :: insertedCalls) : p.NotPutIn i :=
  .inr ⟨name, hname, h⟩

theorem Target.notPutIn (h : p.Target i) : p.NotPutIn i := by
  rcases h with ⟨align, hload⟩ | ⟨name, hname, hcalls⟩
  · exact .inl (by rw [hload]; rfl)
  · refine hcalls.notPutIn fun hmem => hname ?_
    exact List.cons_subset_cons _ (List.subset_append_right _ _) hmem

theorem Extends.old_of_notPutIn (h : p.Extends q) (hi : q.NotPutIn i) : i.index < p.instrs.size := by
  rcases hi with haccesses | ⟨name, hname, hcalls⟩
  · by_contra hge
    rw [(h.new i (Nat.not_lt.mp hge)).1] at haccesses
    cases haccesses
  · exact h.old_of_calls hcalls fun hmem => hname (List.mem_cons_of_mem _ hmem)

end Program

namespace Replacing

open Program (Compares Tells NotPutIn)
open Pattern

variable {settings : RuleSettings} {s s' : RuleState Addresses} {id fetch i : InstrId} {c : Captures}
  {heir answer : Option InstrId} {along : List InstrId} {result : Value} {negated : Bool}

theorem readResult_accepts (hresult : c.lookup "result" = some result) {accepted : Bool}
    (h : readResult negated id c s = .ok accepted s') : accepted = true := by
  unfold readResult at h
  rw [hresult] at h
  obtain ⟨_, _, -, h⟩ := bind_ok h
  obtain ⟨_, _, -, h⟩ := bind_ok h
  obtain ⟨_, _, -, h⟩ := bind_ok h
  obtain ⟨_, _, -, h⟩ := bind_ok h
  have hlast : ∀ {answer : InstrId} {s : RuleState Addresses}, (do
      change fun p => (p.takeName id answer).replaceUses (.instr id) (.instr answer)
      scheduleDelete id
      (c.instr? "one").forM fun canonical => do
        if ← allUsersScheduled canonical then scheduleDeleteOnce canonical
      return true : Replacing Addresses Bool) s = .ok accepted s' → accepted = true := by
    intro answer s h
    obtain ⟨_, _, -, h⟩ := bind_ok h
    obtain ⟨_, _, -, h⟩ := bind_ok h
    obtain ⟨_, _, -, h⟩ := bind_ok h
    exact (pure_ok h).1.symm
  cases negated with
  | false => exact hlast h
  | true =>
    obtain ⟨_, _, -, h⟩ := bind_ok h
    obtain ⟨_, _, -, h⟩ := bind_ok h
    exact hlast h

theorem resultRead_matches {p : Program} {canonical : String}
    (hcanonical : canonical = Program.canonicalFetch negated)
    (h : p.Compares id result fetch negated) :
    ∃ r ∈ resultReadRules (σ := Addresses) canonical negated, ∃ c,
      match? r p id = some c ∧ r.replacer = some (readResult negated) ∧
        c.lookup "result" = some result := by
  subst hcanonical
  have hfetch : ∀ c, Pattern.match? p ((call (Program.canonicalFetch negated) []).as "one")
      (.instr fetch) c = some _ := fun c => match?_fetch.mpr ⟨fetch, rfl, h.canonical, rfl⟩
  have hresult : ∀ c, Pattern.match? p (any.as "result") result c = some _ :=
    fun c => match?_any_as.mpr rfl
  rcases h.sides with hcall | hcall
  · have hmatch : Pattern.match? p (call "__quantum__rt__result_equal" [any.as "result",
        (call (Program.canonicalFetch negated) []).as "one"]) (.instr id) [] = some _ :=
      match?_call_two.mpr ⟨_, _, _, hcall, hresult _, hfetch _⟩
    exact ⟨_, List.mem_cons_self, _, hmatch, rfl, by simp [Captures.lookup_insert]⟩
  · have hmatch : Pattern.match? p (call "__quantum__rt__result_equal" [(call
        (Program.canonicalFetch negated) []).as "one", any.as "result"]) (.instr id) [] = some _ :=
      match?_call_two.mpr ⟨_, _, _, hcall, hfetch _, hresult _⟩
    exact ⟨_, List.mem_cons_of_mem _ List.mem_cons_self, _, hmatch, rfl,
      by simp [Captures.lookup_insert]⟩

theorem compares_accepted (hone : settings.optimiseResultOne = true)
    (hzero : settings.optimiseResultZero = true) (hcompares : s.program.Compares id result fetch negated)
    (hlive : (s.program.instr id).erased = false) {accepted : Bool}
    (h : applyFirst settings.rules id s = .ok accepted s') : accepted = true := by
  have hgroup : (if negated then RuleGroup.resultZero else .resultOne) ∈ settings.groups := by
    cases negated <;> simp [RuleSettings.groups, hone, hzero]
  obtain ⟨r, hr, c, hmatch, hreplacer, hresult⟩ := resultRead_matches rfl hcompares
  have hrule : r ∈ settings.rules := by
    refine List.mem_flatMap.mpr ⟨_, hgroup, ?_⟩
    cases negated <;> exact hr
  exact applyFirst_settled hrule hlive hmatch hreplacer
    (fun hdeclined => nomatch readResult_accepts hresult hdeclined) h

theorem Work.of_compares (h : Work settings id s s' heir answer)
    (hcompares : s.program.Compares id result fetch negated) :
    ∃ result fetch negated read a, s.program.Compares id result fetch negated ∧ heir = none ∧
      answer = some a ∧ (s.program.instrs.size ≤ read.index ∧ s.program.instrs.size ≤ a.index) ∧
      s'.program.CallsWith read "__quantum__qis__read_result__body" [result.turn id answer] ∧
      (s'.program.instr read).parent.isSome = true ∧ s'.program.Tells read negated a ∧
      (fetch ∈ s'.scheduled.map (·.old) ∨ ∃ user ∈ s'.program.usersOf (.instr fetch),
        ∀ i, user = .instr i → i ∉ s'.scheduled.map (·.old)) := by
  obtain ⟨a, rfl⟩ := h.turns ⟨_, by decide, hcompares.calls⟩
  cases h with
  | placed hcall =>
    cases hcall with
    | one hcall => exact absurd (hcall.calls.unique hcompares.calls) (by decide)
    | array _ hcall => exact absurd (hcall.calls.unique hcompares.calls) (by decide)
  | compared hother hnew hread hattached htells hfetch =>
    exact ⟨_, _, _, _, a, hother, rfl, rfl, hnew, hread, hattached, htells, hfetch⟩

theorem Serves.notPutIn {p : Program} (h : Serves p id heir i) : p.NotPutIn i := by
  rcases h.part with (hfetch | hfetch) | ⟨hcast | hcalls, -⟩
  · exact hfetch.notPutIn (by decide)
  · exact hfetch.notPutIn (by decide)
  · left
    rw [hcast]
    rfl
  · exact hcalls.notPutIn (by decide)

end Replacing

namespace Transform

open Replacing
open Program (Turned Compares ReadFor)

variable {settings : RuleSettings} {st : RuleState Addresses} {id fetch i : InstrId} {ids : List InstrId}

/-! ## 3. Rounds -/

theorem Attends.old_of_scheduled (hs : st.program.Sound) (h : Attends settings st ids)
    (hstart : st.scheduled = [])
    (hi : i ∈ (visitAll settings.rules st ids).scheduled.map (·.old)) : i.index < st.program.instrs.size := by
  obtain ⟨r, hr, rfl⟩ := List.mem_map.mp hi
  rcases h.origin hs hr with hmem | ⟨xs, id, ys, heir, answer, along, rfl, hwork, hfound⟩
  · rw [hstart] at hmem
    cases hmem
  obtain ⟨hgrown, -, -, -⟩ := h.split hs
  rcases hfound with rfl | ⟨-, halong⟩
  · exact hgrown.old_of_notPutIn hwork.work.target.notPutIn
  · exact hgrown.old_of_notPutIn (hwork.served r.old halong).2.notPutIn

theorem Turns.scheduled (hs : st.program.Sound) (h : Attends settings st ids) {ts : List (InstrId × InstrId)}
    (hts : Turns settings st ids ts) {t : InstrId × InstrId} (ht : t ∈ ts) :
    t.1 ∈ (visitAll settings.rules st ids).scheduled.map (·.old) := by
  obtain ⟨xs, ys, -, -, heir, along, rfl, -, -, hwork, -⟩ := hts.origin ht
  rw [List.append_cons] at h ⊢
  obtain ⟨hfirst, hrest⟩ := attends_append.mp h
  rw [visitAll_append]
  refine List.map_subset _ (hrest.scheduled (hfirst.extends hs).sound).subset ?_
  rw [hwork.entries, List.map_append, List.map_cons]
  exact List.mem_append_right _ List.mem_cons_self

/-- After a comparison has been tried, an instruction in a block uses its fetch, and it is not scheduled
    yet. -/
structure Needs (settings : RuleSettings) (st : RuleState Addresses) (ids : List InstrId)
    (id fetch i : InstrId) : Prop where
  unscheduled : ∃ xs ys, ids = xs ++ id :: ys ∧
    i ∉ (visitAll settings.rules st (xs ++ [id])).scheduled.map (·.old)
  uses : ((visitAll settings.rules st ids).program.instr i).uses (.instr fetch) = true
  stands : ((visitAll settings.rules st ids).program.instr i).parent.isSome = true
  before : i.index < st.program.instrs.size → (st.program.instr i).uses (.instr fetch) = true

theorem needs_of_user {xs ys : List InstrId} {us vs : List (InstrId × InstrId)}
    (hearly : Turned us st.program (visitAll settings.rules st (xs ++ [id])).program)
    (hlate : Turned vs (visitAll settings.rules st (xs ++ [id])).program
      (visitAll settings.rules st (xs ++ id :: ys)).program)
    (hcalls : st.program.Calls fetch (Program.canonicalFetch negated))
    (hi : .instr i ∈ (visitAll settings.rules st (xs ++ [id])).program.usersOf (.instr fetch))
    (hnot : i ∉ (visitAll settings.rules st (xs ++ [id])).scheduled.map (·.old)) :
    Needs settings st (xs ++ id :: ys) id fetch i := by
  obtain ⟨hlive, hstands, huses⟩ := Program.mem_usersOf_instr.mp hi
  have hnonempty := Program.canonicalFetch_ne negated
  have hcalls' := hearly.grown.calls hnonempty hcalls
  have hturned := hlate.not_mem_of_calls (hlate.grown.calls hnonempty hcalls')
    (Program.canonicalFetch_apart negated).2
  refine ⟨⟨xs, ys, rfl, hnot⟩, hlate.uses hlive hturned huses, ?_, fun hlt => ?_⟩
  · rw [(hlate.grown.instr i (Program.instr_lt_of_live hlive)).2.2.1]
    exact hstands
  · have hbefore : (st.program.instr i).erased = false :=
      (hearly.grown.instr i hlt).2.2.2.1.symm.trans hlive
    exact hearly.uses_back hbefore (hearly.fetch_ne hcalls') huses

theorem Turns.mem_of_compares (hs : st.program.Sound) (h : Attends settings st ids)
    {ts : List (InstrId × InstrId)} (hts : Turns settings st ids ts)
    (hone : settings.optimiseResultOne = true) (hzero : settings.optimiseResultZero = true)
    (hid : id ∈ ids) {result : Value} {negated : Bool}
    (hcompares : st.program.Compares id result fetch negated) : id ∈ ts.map (·.1) := by
  obtain ⟨xs, ys, rfl⟩ := List.append_of_mem hid
  obtain ⟨us, -, -, hus, -⟩ := hts.split
  obtain ⟨hbefore, ⟨b, hb⟩, -, -⟩ := h.split hs
  have hthere := (hus.turned hs).compares hcompares
  obtain ⟨accepted, hvisit⟩ := (attends_append.mp h).2.2.1
  obtain rfl := compares_accepted hone hzero hthere (hbefore.sound.instr_live hb) hvisit
  exact hts.mem_olds (accepts_of_ok hvisit) ⟨_, by decide, hthere.calls⟩

theorem Turns.compared (hs : st.program.Sound) (h : Attends settings st ids)
    {ts : List (InstrId × InstrId)} (hts : Turns settings st ids ts)
    (hone : settings.optimiseResultOne = true) (hzero : settings.optimiseResultZero = true)
    (hid : id ∈ ids) {result : Value} {negated : Bool}
    (hcompares : st.program.Compares id result fetch negated) :
    ∃ result fetch negated read answer, st.program.Compares id result fetch negated ∧
      ReadFor (visitAll settings.rules st ids).program (Value.turnAll ts) id result negated read answer ∧
      (st.program.instrs.size ≤ read.index ∧ st.program.instrs.size ≤ answer.index) ∧
      id ∈ (visitAll settings.rules st ids).scheduled.map (·.old) ∧
      (fetch ∈ (visitAll settings.rules st ids).scheduled.map (·.old) ∨
        (∃ i, Needs settings st ids id fetch i) ∨ ∃ g, (st.program.global g).uses (.instr fetch) = true) := by
  obtain ⟨answer, hanswer, hgiven⟩ := Value.turnAll_of_mem (hts.turned hs).apart
    (hts.mem_of_compares hs h hone hzero hid hcompares)
  have hscheduled := hts.scheduled hs h hanswer
  obtain ⟨xs, ys, us, vs, heir, along, rfl, hsplit, hus, hwork, hvs⟩ := hts.origin hanswer
  have hattends := h
  rw [List.append_cons] at hattends
  obtain ⟨hfirst, hrest⟩ := attends_append.mp hattends
  have hend : visitAll settings.rules st (xs ++ id :: ys) =
      visitAll settings.rules (visitAll settings.rules st (xs ++ [id])) ys := by
    rw [List.append_cons, visitAll_append]
  have hearly := hus.turned hs
  have hlate := hvs.turned hwork.grown.sound
  rw [← hend] at hlate
  have hlive : (st.program.instr id).erased = false := hcompares.sides.elim (·.live) (·.live)
  obtain ⟨v, fetch, negated, read, a, hthere, -, ha, hnew, hread, hattached, htells, hfetch⟩ :=
    hwork.work.of_compares (hearly.compares hcompares)
  obtain rfl := Option.some.inj ha
  obtain ⟨result, hbefore, rfl⟩ := hearly.compares_back hlive hthere
  have hgrown := hearly.grown
  have hresult : Value.turnAll vs (Value.turn id (some answer) (Value.turnAll us result)) =
      Value.turnAll ts result := by
    rw [hsplit, Value.turnAll_append]
    rfl
  refine ⟨result, fetch, negated, read, answer, hbefore, ⟨hgiven, ?_, ?_, ?_⟩,
    ⟨hgrown.instrs.trans hnew.1, hgrown.instrs.trans hnew.2⟩, hscheduled, ?_⟩
  · have hcalls := hlate.callsWith (by decide) hread
    rw [List.map_singleton, hresult] at hcalls
    exact hcalls
  · rw [(hlate.grown.instr read (Program.instr_lt_of_live hread.live)).2.2.1]
    exact hattached
  · exact hlate.tells htells hread.calls
  · -- what needs the fetch then
    have hcanonical := hbefore.canonical.calls
    have hmid := hearly.trans hwork.turned
    rcases hfetch with hfetch | ⟨user, huser, hnot⟩
    · left
      rw [hend]
      exact List.map_subset _ (hrest.scheduled hwork.grown.sound).subset hfetch
    cases user with
    | global g =>
      refine .inr (.inr ⟨g, ?_⟩)
      refine (hmid.grown.globals fetch g (Program.mem_usersOf_global.mp huser)).resolve_right fun hge => ?_
      exact Nat.not_lt.mpr hge hcanonical.lt
    | instr i => exact .inr (.inl ⟨i, needs_of_user hmid hlate hcanonical huser (hnot i rfl)⟩)

end Transform

/-! ## 4. What is left -/

namespace Program

open Value (mentions turnAll)

variable {p q r : Program} {rs : List Replacement} {ts : List (InstrId × InstrId)} {dropped : List InstrId}
  {id i o : InstrId} {result : Value} {negated : Bool} {σ τ : Value → Value}

/-- **What has become of the instructions of a program.** Some of them are gone, and nothing in a block uses
    them. The others stand where they stood, with their operands rewritten, and an operand that mentions
    nothing that is gone is as it was. -/
structure Rewritten (p q : Program) (dropped : List InstrId) (σ : Value → Value) : Prop where
  sound : q.Sound
  gone : ∀ i ∈ dropped, (q.instr i).erased = true
  unused : ∀ i ∈ dropped, ∀ j, (q.instr j).parent.isSome = true → (q.instr j).uses (.instr i) = false
  kept : ∀ i, (p.instr i).parent.isSome = true → i ∉ dropped → (q.instr i).erased = false ∧
    (q.instr i).parent = (p.instr i).parent ∧ (q.instr i).kind = (p.instr i).kind ∧
      (q.instr i).operands = (p.instr i).operands.map σ
  calls : ∀ i, (p.instr i).parent.isSome = true → i ∉ dropped → ∀ name ≠ "", p.Calls i name → q.Calls i name
  same : ∀ v, (∀ i ∈ dropped, mentions (.instr i) v = false) → σ v = v
  mentioned : ∀ i ∉ dropped, ∀ v, mentions (.instr i) v = true → mentions (.instr i) (σ v) = true

theorem Rewritten.instr (h : Rewritten p q dropped σ) (hi : i ∉ dropped) : σ (.instr i) = .instr i := by
  refine h.same _ fun j hj => Bool.eq_false_iff.mpr fun hmentions => hi ?_
  obtain rfl : i = j := by simpa [Value.mentions] using hmentions
  exact hj

theorem Rewritten.not_gone (h : Rewritten p q dropped σ) (hi : (q.instr i).parent.isSome = true) :
    i ∉ dropped := by
  intro hmem
  rw [h.sound.erasedInstr i (h.gone i hmem)] at hi
  cases hi

theorem Rewritten.uses (h : Rewritten p q dropped σ) (hi : (p.instr i).parent.isSome = true)
    (hkept : i ∉ dropped) (ho : o ∉ dropped) (huses : (p.instr i).uses (.instr o) = true) :
    (q.instr i).parent.isSome = true ∧ (q.instr i).uses (.instr o) = true := by
  obtain ⟨-, hparent, -, hoperands⟩ := h.kept i hi hkept
  obtain ⟨v, hv, hmentions⟩ := Instr.uses_iff.mp huses
  refine ⟨hparent ▸ hi, Instr.uses_iff.mpr ⟨σ v, ?_, h.mentioned o ho v hmentions⟩⟩
  rw [hoperands]
  exact List.mem_map_of_mem hv

theorem rewritten_of_carried (hready : Ready rs p) (hspliced : Spliced rs p q) (hcarried : Carried rs p q)
    (hguests : ∀ r ∈ rs, ∀ a, r.new = some a → ∃ bits address, Replacing.Guest p a bits address) :
    Rewritten p q (rs.map (·.old)) (p.handOver rs) := by
  have hkept : ∀ i, (p.instr i).parent.isSome = true → i ∉ rs.map (·.old) → (q.instr i).erased = false ∧
      (q.instr i).parent = (p.instr i).parent ∧ (q.instr i).kind = (p.instr i).kind ∧
        (q.instr i).operands = (p.instr i).operands.map (p.handOver rs) := by
    intro i hi hnot
    have hnew : i ∉ rs.filterMap (·.new) := by
      intro hmem
      obtain ⟨r, hr, hri⟩ := List.mem_filterMap.mp hmem
      rw [(hready.guests r hr i hri).2.2] at hi
      cases hi
    have hoperands := hcarried.operands i hnot hi
    rw [hready.pending] at hoperands
    obtain ⟨b, hb⟩ := Option.isSome_iff_exists.mp hi
    refine ⟨?_, hspliced.parent i hnot hnew, (hspliced.instr i).1, hoperands⟩
    rw [hspliced.live i hnot]
    exact hready.sound.instr_live (hready.sound.mem_instrs.mpr hb)
  refine ⟨hspliced.sound, hspliced.gone, fun o ho j hj => Bool.eq_false_iff.mpr fun huses => ?_, hkept,
    fun i _ _ name _ hcalls => ?_, fun v hv => ?_, fun i hi v hv => mentions_handOver_of_not_mem hv hi⟩
  · obtain ⟨w, hw, hmentions⟩ := Instr.uses_iff.mp huses
    by_cases hnew : j ∈ rs.filterMap (·.new)
    · -- what has been put in is made of a constant
      obtain ⟨r, hr, hrj⟩ := List.mem_filterMap.mp hnew
      obtain ⟨bits, address, hguest⟩ := hguests r hr j hrj
      rw [(hspliced.isPointer hguest).operands] at hw
      obtain rfl := List.mem_singleton.mp hw
      simp [Value.ofInt, Value.mentions] at hmentions
    · have hnot : j ∉ rs.map (·.old) := by
        intro hmem
        rw [hspliced.sound.erasedInstr j (hspliced.gone j hmem)] at hj
        cases hj
      rw [hspliced.parent j hnot hnew] at hj
      rw [(hkept j hj hnot).2.2.2] at hw
      obtain ⟨v, -, rfl⟩ := List.mem_map.mp hw
      rcases mentions_handOver hmentions with ⟨-, hstays⟩ | ⟨r, hr, hro⟩
      · exact hstays ho
      · exact (hready.guests r hr o hro).1 ho
  · exact hspliced.calls_iff.mpr hcalls
  · exact handOver_of_not_mentioned fun r hr => hv r.old (List.mem_map_of_mem hr)

theorem Turned.rewritten (h : Turned ts p r) (hp : p.Sound) (hafter : Rewritten r q dropped τ)
    (hts : ∀ t ∈ ts, t.1 ∈ dropped) : Rewritten p q dropped fun v => τ (turnAll ts v) := by
  have hlt : ∀ {i}, (p.instr i).parent.isSome = true → i.index < p.instrs.size := by
    intro i hi
    obtain ⟨b, hb⟩ := Option.isSome_iff_exists.mp hi
    exact instr_lt_of_parent hb
  have hstands : ∀ {i}, (p.instr i).parent.isSome = true → (r.instr i).parent.isSome = true := by
    intro i hi
    rw [(h.grown.instr i (hlt hi)).2.2.1]
    exact hi
  refine ⟨hafter.sound, hafter.gone, hafter.unused, fun i hi hnot => ?_, fun i hi hnot name hname hcalls => ?_,
    fun v hv => ?_, fun i hi v hv => ?_⟩
  · obtain ⟨hlive, hparent, hkind, hoperands⟩ := hafter.kept i (hstands hi) hnot
    obtain ⟨hkind', -, hparent', -, -⟩ := h.grown.instr i (hlt hi)
    obtain ⟨b, hb⟩ := Option.isSome_iff_exists.mp hi
    refine ⟨hlive, hparent.trans hparent', hkind.trans hkind', ?_⟩
    rw [hoperands, h.operands i (hp.instr_live (hp.mem_instrs.mpr hb)), List.map_map]
    rfl
  · exact hafter.calls i (hstands hi) hnot name hname (h.grown.calls hname hcalls)
  · rw [Value.turnAll_of_not_mentioned fun t ht => hv t.1 (hts t ht)]
    exact hafter.same v hv
  · refine hafter.mentioned i hi _ (Value.mentions_turnAll_of_not_mem hv fun hmem => hi ?_)
    obtain ⟨t, ht, rfl⟩ := List.mem_map.mp hmem
    exact hts t ht

theorem ReadFor.rewritten {read answer : InstrId} (h : ReadFor p σ id result negated read answer)
    (hafter : Rewritten p q dropped τ) (hread : read ∉ dropped) (hanswer : answer ∉ dropped) :
    ReadFor q (fun v => τ (σ v)) id result negated read answer := by
  obtain ⟨hlive, hparent, -, hoperands⟩ := hafter.kept read h.stands hread
  obtain ⟨callee, hcallee⟩ := h.calls.operands
  refine ⟨?_, ⟨hlive, hafter.calls read h.stands hread _ (by decide) h.calls.calls, τ callee, ?_⟩,
    hparent ▸ h.stands, h.tells.rewritten (hafter.instr hread) (fun bits n => ?_) fun _ hi =>
      hafter.kept answer hi hanswer⟩
  · exact (congrArg τ h.given).trans (hafter.instr hanswer)
  · rw [hoperands, hcallee, List.map_append, List.map_singleton, List.map_singleton]
  · exact hafter.same _ fun i _ => by simp [Value.ofInt, Value.mentions]

theorem Rewritten.congr (h : Rewritten p q dropped σ) (hframe : r.SameFrame p)
    (hinstr : ∀ i, p.instr i = r.instr i) : Rewritten r q dropped σ where
  sound := h.sound
  gone := h.gone
  unused := h.unused
  kept i := by
    rw [← hinstr]
    exact h.kept i
  calls i hi hnot name hname hcalls :=
    h.calls i (by rw [hinstr]; exact hi) hnot name hname ((Calls.congr hframe hinstr).mpr hcalls)
  same := h.same
  mentioned := h.mentioned

end Program

namespace Transform

open Replacing
open Program (Rewritten ReadFor Compares)

variable {settings : RuleSettings} {s : TransformSettings} {c c' : Compilation}
  {stats stats' : TransformStatistics}

theorem applyRules_rewritten (hp : c.program.Sound)
    (h : applyRules settings.rules s stats c = .ok stats' c') : ∃ τ,
      (lastOf settings s c).program.Rewritten c'.program ((lastOf settings s c).scheduled.map (·.old)) τ := by
  obtain ⟨run, c₁, n, q, hwent, hready, -, hspliced, hcarried, rfl⟩ := applyRules_went hp h
  obtain ⟨hframe, hinstr⟩ := hwent.sameFrame
  have hpending : Pending (lastOf settings s c) := hwent.attends.pending hp rfl
  obtain ⟨τ, hτ⟩ : ∃ τ, c₁.program.Rewritten c'.program (run.scheduled.reverse.map (·.old)) τ := by
    refine ⟨_, Program.rewritten_of_carried hready.reverse hspliced hcarried fun r hr a ha => ?_⟩
    obtain ⟨bits, address, hguest⟩ :=
      hpending.guests r (hwent.scheduled ▸ List.mem_reverse.mp hr) a ha
    exact ⟨bits, address, hguest.congr hinstr⟩
  have hmem : ∀ i, i ∈ run.scheduled.reverse.map (·.old) ↔
      i ∈ (lastOf settings s c).scheduled.map (·.old) := by
    intro i
    rw [List.map_reverse, List.mem_reverse, hwent.scheduled]
  refine ⟨τ, (Rewritten.congr ?_ hframe hinstr)⟩
  exact
    { sound := hτ.sound
      gone := fun i hi => hτ.gone i ((hmem i).mpr hi)
      unused := fun i hi => hτ.unused i ((hmem i).mpr hi)
      kept := fun i hi hnot => hτ.kept i hi (mt (hmem i).mp hnot)
      calls := fun i hi hnot => hτ.calls i hi (mt (hmem i).mp hnot)
      same := fun v hv => hτ.same v fun i hi => hv i ((hmem i).mp hi)
      mentioned := fun i hi => hτ.mentioned i (mt (hmem i).mp hi) }

/-- An instruction that uses a fetch is scheduled only after a comparison with it has been tried. -/
def ScheduledLater (settings : RuleSettings) (s : TransformSettings) (c : Compilation)
    (id fetch : InstrId) : Prop :=
  ∃ xs ys i, tried settings s c.program c.addresses = xs ++ id :: ys ∧
    (c.program.instr i).uses (.instr fetch) = true ∧
    i ∈ (lastOf settings s c).scheduled.map (·.old) ∧
    i ∉ (visitAll settings.rules (startOf c) (xs ++ [id])).scheduled.map (·.old)

/-- A comparison that is visited gives way to a read, and a fetch stays only for a user, for a
    global, or because its last user was scheduled later. -/
theorem applyRules_comparedResults (settings : RuleSettings) (s : TransformSettings)
    (hone : settings.optimiseResultOne = true) (hzero : settings.optimiseResultZero = true)
    (hp : c.program.Sound) (h : applyRules settings.rules s stats c = .ok stats' c') :
    ∃ σ, c.program.Rewritten c'.program ((lastOf settings s c).scheduled.map (·.old)) σ ∧
      ∀ id ∈ tried settings s c.program c.addresses, ∀ result fetch negated,
        c.program.Compares id result fetch negated →
          ((c'.program.instr id).erased = true ∧ ∀ i, (c'.program.instr i).parent.isSome = true →
            (c'.program.instr i).uses (.instr id) = false) ∧
          (∃ result fetch negated read answer, c.program.Compares id result fetch negated ∧
            c'.program.ReadFor σ id result negated read answer) ∧
          ((c'.program.instr fetch).parent.isSome = true →
            (∃ i, (c'.program.instr i).parent.isSome = true ∧
              (c'.program.instr i).uses (.instr fetch) = true) ∨
            ScheduledLater settings s c id fetch ∨
            ∃ g, (c.program.global g).uses (.instr fetch) = true) := by
  obtain ⟨run, c₁, -, -, hwent, -⟩ := applyRules_went hp h
  have hattends := hwent.attends
  obtain ⟨ts, hts⟩ := hattends.turns hp
  obtain ⟨τ, hafter⟩ := applyRules_rewritten hp h
  have hrewritten := (hts.turned hp).rewritten hp hafter fun t ht => hts.scheduled hp hattends ht
  have hold : ∀ i ∈ (lastOf settings s c).scheduled.map (·.old), i.index < c.program.instrs.size :=
    fun i hi => hattends.old_of_scheduled hp rfl hi
  refine ⟨_, hrewritten, fun id hid result fetch negated hcompares => ?_⟩
  obtain ⟨result', fetch', negated', read, answer, hcompares', hread, hnew, hgone, hfetch⟩ :=
    hts.compared hp hattends hone hzero hid hcompares
  have hread' := hread.rewritten hafter (fun hmem => Nat.not_lt.mpr hnew.1 (hold _ hmem))
    fun hmem => Nat.not_lt.mpr hnew.2 (hold _ hmem)
  refine ⟨⟨hrewritten.gone id hgone, hrewritten.unused id hgone⟩,
    ⟨result', fetch', negated', read, answer, hcompares', hread'⟩, fun hstands => ?_⟩
  have hkept := hrewritten.not_gone hstands
  rcases hcompares.unique hcompares' with hsame | hother
  · subst hsame
    rcases hfetch with hmem | ⟨i, hneeds⟩ | hglobal
    · exact absurd hmem hkept
    · by_cases hi : i ∈ (lastOf settings s c).scheduled.map (·.old)
      · obtain ⟨xs, ys, horder, hnot⟩ := hneeds.unscheduled
        exact .inr (.inl ⟨xs, ys, i, horder, hneeds.before (hold i hi), hi, hnot⟩)
      · exact .inl ⟨i, hafter.uses hneeds.stands hi hkept hneeds.uses⟩
    · exact .inr (.inr hglobal)
  · -- two fetches are compared, and the read is one of this one
    obtain ⟨callee, hcallee⟩ := hread'.calls.operands
    rw [hother, hrewritten.instr hkept] at hcallee
    refine .inl ⟨read, hread'.stands, Instr.uses_of_mem ?_⟩
    rw [hcallee]
    exact List.mem_cons_self

/-- A result is compared with the canonical one, whose references are counted afterwards. -/
def fetching : Program where
  name := "fetching"
  namedTypes := [("Result", none)]
  functions := #[
    ⟨"__quantum__rt__result_get_one", .ptr (.named "Result"), [], false, none, none, [], [], false⟩,
    ⟨"__quantum__rt__result_equal", .int 1,
      [⟨none, .ptr (.named "Result")⟩, ⟨none, .ptr (.named "Result")⟩], false, none, none, [], [], false⟩,
    ⟨"__quantum__rt__result_update_reference_count", .void,
      [⟨none, .ptr (.named "Result")⟩, ⟨none, .int 32⟩], false, none, none, [], [], false⟩,
    ⟨"record", .void, [⟨none, .int 1⟩], false, none, none, [], [], false⟩,
    ⟨"Main", .void, [⟨some "r", .ptr (.named "Result")⟩], false, none, none, [.pair "EntryPoint" none],
      [⟨0⟩], false⟩]
  blocks := #[⟨some "entry", some ⟨4⟩, [⟨0⟩, ⟨1⟩, ⟨2⟩, ⟨3⟩, ⟨4⟩], false⟩]
  instrs := #[
    ⟨.call .none, .ptr (.named "Result"), [.func ⟨0⟩], some "one", some ⟨0⟩, false⟩,
    ⟨.call .none, .int 1, [.arg ⟨4⟩ 0, .instr ⟨0⟩, .func ⟨1⟩], some "e", some ⟨0⟩, false⟩,
    ⟨.call .none, .void, [.instr ⟨0⟩, .int 32 (-1), .func ⟨2⟩], none, some ⟨0⟩, false⟩,
    ⟨.call .none, .void, [.instr ⟨1⟩, .func ⟨3⟩], none, some ⟨0⟩, false⟩,
    ⟨.ret, .void, [], none, some ⟨0⟩, false⟩]

theorem applyRules_comparedResults_fetching : ∃ stats c read,
    applyRules ({} : RuleSettings).rules {} {} { program := fetching } = .ok stats c ∧
    c.program.CallsWith read "__quantum__qis__read_result__body" [.arg ⟨4⟩ 0] ∧
    .instr read ∈ (c.program.instr ⟨3⟩).operands := by
  obtain ⟨stats, c, hrun, -⟩ := exists_ok
    (r := applyRules ({} : RuleSettings).rules {} {} { program := fetching }) (P := fun _ => True)
    (by decide +kernel)
  obtain ⟨σ, hrewritten, hcompared⟩ := applyRules_comparedResults {} {} (c := { program := fetching })
    rfl rfl (by decide +kernel) hrun
  have hcompares : fetching.Compares ⟨1⟩ (.arg ⟨4⟩ 0) ⟨0⟩ false :=
    ⟨⟨rfl, by decide, .func ⟨0⟩, rfl⟩, .inl ⟨rfl, by decide, .func ⟨1⟩, rfl⟩⟩
  obtain ⟨-, ⟨result, fetch, negated, read, answer, hother, hread⟩, -⟩ :=
    hcompared ⟨1⟩ (by decide +kernel) _ _ _ hcompares
  -- there is one account of the comparison only
  obtain ⟨rfl, rfl⟩ : result = .arg ⟨4⟩ 0 ∧ fetch = ⟨0⟩ := by
    rcases hother.sides with hcall | hcall <;> obtain ⟨callee, hoperands⟩ := hcall.operands <;>
      obtain ⟨hfirst, hrest⟩ := List.cons.inj hoperands
    · exact ⟨hfirst.symm, (Value.instr.inj (List.cons.inj hrest).1).symm⟩
    · cases hfirst
  obtain rfl : negated = false := by
    have hname := hother.canonical.calls.unique hcompares.canonical.calls
    cases negated with
    | false => rfl
    | true => exact absurd hname (by decide)
  cases hread.tells
  have hresult := hrewritten.same (.arg ⟨4⟩ 0) fun i _ => by simp [Value.mentions]
  obtain ⟨-, -, -, hoperands⟩ := hrewritten.kept ⟨3⟩ (by decide) (by decide +kernel)
  refine ⟨stats, c, read, hrun, hresult ▸ hread.calls, ?_⟩
  rw [hoperands, ← hread.given]
  exact List.mem_map_of_mem List.mem_cons_self

/-- The other user of the fetch goes after the comparison was visited, and the fetch stays without
    users. -/
theorem fetching_leaves_fetch : fetching.Sound ∧ fetching.verify = .ok () ∧
    fetching.Compares ⟨1⟩ (.arg ⟨4⟩ 0) ⟨0⟩ false ∧ ∃ stats c,
    applyRules ({} : RuleSettings).rules {} {} { program := fetching } = .ok stats c ∧
    (c.program.instr ⟨1⟩).erased = true ∧ (c.program.instr ⟨0⟩).parent = some ⟨0⟩ ∧
    c.program.hasUses (.instr ⟨0⟩) = false :=
  ⟨by decide +kernel, by rfl,
    ⟨⟨rfl, by decide, .func ⟨0⟩, rfl⟩, .inl ⟨rfl, by decide, .func ⟨1⟩, rfl⟩⟩, exists_ok (by decide +kernel)⟩

end Transform

end QirProfile
