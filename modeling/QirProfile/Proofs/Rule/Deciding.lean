import QirProfile.ControlFlow
import QirProfile.Proofs.Rule.Parts

/-!
# Which rule decides

A rule set tries its rules in order, and a rule that matches can still decline. That costs nothing: a
replacer looks at what was captured before it asks an allocator or edits the program, and from the
first request or edit on it accepts or fails.
-/

namespace QirProfile

namespace Replacing

variable {σ α : Type}

/-! ## 1. Declining -/

/-- The step does not decline. -/
def Committed (x : Replacing σ Bool) : Prop := ∀ s b s', x s = .ok b s' → b = true

/-- The step has done nothing where it declines. -/
def Free (x : Replacing σ Bool) : Prop := ∀ s s', x s = .ok false s' → s' = s

theorem committed_accept : Committed (pure true : Replacing σ Bool) := by
  rintro s b s' ⟨⟩
  rfl

theorem Committed.after {f : α → Replacing σ Bool} (hf : ∀ a, Committed (f a)) (x : Replacing σ α) :
    Committed (x >>= f) := by
  intro s b s' h
  obtain ⟨a, u, -, h⟩ := bind_ok h
  exact hf a u b s' h

theorem Committed.free {x : Replacing σ Bool} (h : Committed x) : Free x :=
  fun s s' hx => nomatch h s false s' hx

theorem free_pure (b : Bool) : Free (pure b : Replacing σ Bool) := by
  rintro s s' ⟨⟩
  rfl

theorem free_get {f : RuleState σ → Replacing σ Bool} (hf : ∀ s, Free (f s)) :
    Free (get >>= f) :=
  fun s s' h => hf s s s' h

theorem free_program {f : Program → Replacing σ Bool} (hf : ∀ p, Free (f p)) :
    Free (program >>= f) :=
  fun s s' h => hf s.program s s' h

/-! ## 2. The replacers -/

theorem committed_deleteInstr (id : InstrId) (c : Captures) : Committed (deleteInstr (σ := σ) id c) :=
  .after (fun _ => committed_accept) _

theorem committed_scheduleDelete (id : InstrId) :
    Committed (do scheduleDelete id; return true : Replacing σ Bool) :=
  .after (fun _ => committed_accept) _

theorem free_releaseQubit (id : InstrId) (c : Captures) : Free (releaseQubit id c) := by
  unfold releaseQubit
  split
  · exact free_pure false
  split
  · exact free_pure false
  · exact Committed.free (.after (fun _ => committed_scheduleDelete id) _)

theorem free_releaseArray (id : InstrId) (c : Captures) : Free (releaseArray id c) := by
  unfold releaseArray
  refine free_get fun s => ?_
  dsimp only
  split
  · exact (committed_deleteInstr id c).free
  · exact free_releaseQubit id c

theorem free_allocateQubit (width : Nat) (id : InstrId) (c : Captures) :
    Free (allocateQubit width id c) := by
  unfold allocateQubit
  refine free_program fun p => ?_
  dsimp only
  split
  · exact free_pure false
  · refine Committed.free (.after (fun start => .after (fun address => ?_) _) _)
    exact .after (fun _ => committed_accept) _

theorem free_allocateArray (width : Nat) (id : InstrId) (c : Captures) :
    Free (allocateArray width id c) := by
  unfold allocateArray
  refine free_program fun p => ?_
  dsimp only
  split
  · exact free_pure false
  split
  · exact free_pure false
  · refine Committed.free (.after (fun start => .after (fun address => ?_) _) _)
    have hrest : Committed (do substituteAddress id address; return true : Replacing Addresses Bool) :=
      .after (fun _ => committed_accept) _
    split
    · exact .after (fun _ => hrest) _
    · exact hrest

theorem free_accessElement (width : Nat) (id : InstrId) (c : Captures) :
    Free (accessElement width id c) := by
  unfold accessElement
  refine free_program fun p => ?_
  split
  · refine Committed.free (.after (fun address => .after (fun _ => .after (fun _ => ?_) _) _) _)
    exact .after (fun _ => committed_accept) _
  · exact free_pure false

theorem free_measure (width : Nat) (id : InstrId) (c : Captures) : Free (measure width id c) := by
  unfold measure
  refine free_program fun p => ?_
  dsimp only
  split
  · exact free_pure false
  split
  · exact free_pure false
  · refine Committed.free (.after (fun start => .after (fun address => .after (fun p => ?_) _) _) _)
    refine .after (fun f => .after (fun p => .after (fun _ => .after (fun _ => ?_) _) _) _) _
    exact committed_accept

theorem free_readResult (negated : Bool) (id : InstrId) (c : Captures) :
    Free (readResult (σ := σ) negated id c) := by
  unfold readResult
  split
  · exact free_pure false
  refine free_program fun p => Committed.free (.after (fun f => .after (fun p => ?_) _) _)
  refine .after (fun read => ?_) _
  have hrest : ∀ answer : InstrId, Committed (do
      change fun p => (p.takeName id answer).replaceUses (.instr id) (.instr answer)
      scheduleDelete id
      (c.instr? "one").forM fun canonical => do
        if ← allUsersScheduled canonical then scheduleDeleteOnce canonical
      return true : Replacing σ Bool) := fun answer =>
    .after (fun _ => .after (fun _ => .after (fun _ => committed_accept) _) _) _
  split
  · exact .after (fun p => .after hrest _) _
  · exact hrest read

theorem free_resolveSize (id : InstrId) (c : Captures) : Free (resolveSize (σ := σ) id c) := by
  unfold resolveSize
  split
  · exact Committed.free (.after (fun _ => committed_scheduleDelete id) _)
  · exact free_pure false

theorem free_settleBranch (id : InstrId) (c : Captures) : Free (settleBranch (σ := σ) id c) := by
  unfold settleBranch
  split
  · rename_i cond ifTrue ifFalse _ _ _
    generalize (if cond ≠ 0 then (ifTrue, ifFalse) else (ifFalse, ifTrue)) = arms
    obtain ⟨taken, dropped⟩ := arms
    refine Committed.free (.after (fun _ => ?_) _)
    split
    · exact .after (fun p => .after (fun _ => committed_scheduleDelete id) _) _
    · exact committed_scheduleDelete id
  · exact free_pure false

theorem free_invokeToCall (id : InstrId) (c : Captures) : Free (invokeToCall (σ := σ) id c) := by
  unfold invokeToCall
  refine free_program fun p => ?_
  dsimp only
  split
  · rename_i callee normal unwind _ _
    refine Committed.free (.after (fun p => .after (fun call => .after (fun _ => ?_) _) _) _)
    refine .after (fun _ => ?_) _
    split
    · exact .after (fun _ => committed_scheduleDelete id) _
    · exact committed_scheduleDelete id
  · exact free_pure false

/-! ## 3. Rule sets -/

/-- Whatever replacer a rule has is free. -/
abbrev FreeRule (r : Rule σ) : Prop := EachReplacer (fun f => ∀ id c, Free (f id c)) r

theorem freeRule_removeCalls (name : String) : FreeRule (removeCalls (σ := σ) name) :=
  eachReplacer_of fun id c => (committed_deleteInstr id c).free

/-- The rule sets that can be put together: from groups of any width, removals of any calls, and the
    rules that fold control flow, in any order. -/
inductive Installed : {σ : Type} → List (Rule σ) → Prop where
  | none {σ : Type} : Installed ([] : List (Rule σ))
  | group (width : Nat) (g : RuleGroup) : Installed (g.rules width)
  | removal {σ : Type} (name : String) : Installed [removeCalls (σ := σ) name]
  | controlFlow {σ : Type} (assumeNoExcept : Bool) :
      Installed (controlFlowRules (σ := σ) assumeNoExcept)
  | append {σ : Type} {rules more : List (Rule σ)} (h : Installed rules) (hmore : Installed more) :
      Installed (rules ++ more)

theorem catalogued_free (width : Nat) : Catalogued width fun f => ∀ id c, Free (f id c) where
  deleteInstr id c := (committed_deleteInstr id c).free
  readResult := free_readResult
  allocateArray := free_allocateArray width
  accessElement := free_accessElement width
  releaseArray := free_releaseArray
  allocateQubit := free_allocateQubit width
  releaseQubit := free_releaseQubit
  measure := free_measure width
  resolveSize := free_resolveSize

theorem Installed.free {rules : List (Rule σ)} (h : Installed rules) : ∀ r ∈ rules, FreeRule r := by
  induction h with
  | none => exact List.forall_mem_nil _
  | group width g => exact (catalogued_free width).group g
  | removal name => exact List.forall_mem_singleton.mpr (freeRule_removeCalls name)
  | controlFlow assumeNoExcept =>
    unfold controlFlowRules
    refine List.forall_mem_cons.mpr ⟨eachReplacer_of free_settleBranch, ?_⟩
    cases assumeNoExcept with
    | false => exact List.forall_mem_nil _
    | true => exact List.forall_mem_singleton.mpr (eachReplacer_of free_invokeToCall)
  | append _ _ ih ihmore => exact List.forall_mem_append.mpr ⟨ih, ihmore⟩

theorem installed_rules (settings : RuleSettings) : Installed settings.rules := by
  have hgroups : ∀ groups : List RuleGroup,
      Installed (groups.flatMap (·.rules settings.integerWidth)) := by
    intro groups
    induction groups with
    | nil => exact .none
    | cons g groups ih => exact .append (.group settings.integerWidth g) ih
  exact hgroups settings.groups

/-! ## 4. The rule that decides -/

section

variable {rules : List (Rule σ)} {r : Rule σ} {s s' : RuleState σ} {id : InstrId}
  {result : EStateM.Result CompileError (RuleState σ) Bool}

/-- A rule leaves an instruction to others: it does not match, or its replacer declines at once. -/
def Passes (s : RuleState σ) (id : InstrId) (r : Rule σ) : Prop :=
  ∀ c, match? r s.program id = some c → ∀ f, r.replacer = some f → f id c s = .ok false s

/-- One rule of a set comes to a result, from the state that the set was tried in and with the
    captures of its own match. All rules before it pass. -/
inductive Decides (s : RuleState σ) (id : InstrId) (rules : List (Rule σ))
    (result : EStateM.Result CompileError (RuleState σ) Bool) : Prop where
  | intro {before after : List (Rule σ)} {r : Rule σ} {f : Replacer σ} {c : Captures}
      (hrules : rules = before ++ r :: after) (hbefore : ∀ q ∈ before, Passes s id q)
      (hmatch : match? r s.program id = some c) (hreplacer : r.replacer = some f)
      (hresult : f id c s = result)

/-- A result that is no declining. -/
def Conclusive (result : EStateM.Result CompileError (RuleState σ) Bool) : Prop :=
  ∀ s, result ≠ .ok false s

theorem firstAccepting_passed (h : Passes s id r) :
    firstAccepting id (r :: rules) s = firstAccepting id rules s := by
  cases hmatch : match? r s.program id with
  | none => exact firstAccepting_of_none hmatch
  | some c =>
    cases hreplacer : r.replacer with
    | some f => exact firstAccepting_of_false hmatch hreplacer (h c hmatch f hreplacer)
    | none =>
      have hoffer : offer r id c s = .ok false s := by
        unfold offer
        rw [hreplacer]
        rfl
      have hprogram : (program : Replacing σ Program) s = .ok s.program s := rfl
      rw [firstAccepting, bind_of_ok hprogram, hmatch]
      exact bind_of_ok hoffer _

theorem firstAccepting_conclusive {f : Replacer σ} {c : Captures}
    (hmatch : match? r s.program id = some c) (hreplacer : r.replacer = some f)
    (h : Conclusive (f id c s)) : firstAccepting id (r :: rules) s = f id c s := by
  cases hx : f id c s with
  | error e s' => exact firstAccepting_of_error hmatch hreplacer hx
  | ok accepted s' =>
    cases accepted with
    | true => exact firstAccepting_of_true hmatch hreplacer hx
    | false => exact absurd hx (h s')

theorem FreeRule.passes_or (hr : FreeRule r) (s : RuleState σ) (id : InstrId) : Passes s id r ∨
    ∃ c f, match? r s.program id = some c ∧ r.replacer = some f ∧ Conclusive (f id c s) := by
  by_cases h : ∃ c f, match? r s.program id = some c ∧ r.replacer = some f ∧ Conclusive (f id c s)
  · exact .inr h
  · refine .inl fun c hmatch f hreplacer => ?_
    by_contra hne
    refine h ⟨c, f, hmatch, hreplacer, fun s' hx => hne ?_⟩
    rw [hx, hr f hreplacer id c s s' hx]

theorem firstAccepting_decided (hrules : ∀ r ∈ rules, FreeRule r) (s : RuleState σ) (id : InstrId) :
    (∀ r ∈ rules, Passes s id r) ∧ firstAccepting id rules s = .ok false s ∨
      Decides s id rules (firstAccepting id rules s) ∧ Conclusive (firstAccepting id rules s) := by
  induction rules with
  | nil => exact .inl ⟨List.forall_mem_nil _, rfl⟩
  | cons r rules ih =>
    obtain ⟨hr, hrest⟩ := List.forall_mem_cons.mp hrules
    rcases hr.passes_or s id with hpass | ⟨c, f, hmatch, hreplacer, hsettled⟩
    · rw [firstAccepting_passed hpass]
      rcases ih hrest with ⟨hall, hrun⟩ | ⟨⟨hsplit, hbefore, hmatch, hreplacer, hresult⟩, hsettled⟩
      · exact .inl ⟨List.forall_mem_cons.mpr ⟨hpass, hall⟩, hrun⟩
      · exact .inr ⟨⟨congrArg (r :: ·) hsplit, List.forall_mem_cons.mpr ⟨hpass, hbefore⟩, hmatch,
          hreplacer, hresult⟩, hsettled⟩
    · rw [firstAccepting_conclusive hmatch hreplacer hsettled]
      exact .inr ⟨⟨(List.nil_append _).symm, List.forall_mem_nil _, hmatch, hreplacer, rfl⟩, hsettled⟩

theorem Decides.firstAccepting_eq (h : Decides s id rules result) (hsettled : Conclusive result) :
    firstAccepting id rules s = result := by
  obtain ⟨rfl, hbefore, hmatch, hreplacer, rfl⟩ := h
  rename_i before after r f c
  induction before with
  | nil => exact firstAccepting_conclusive hmatch hreplacer hsettled
  | cons q before ih =>
    obtain ⟨hq, hrest⟩ := List.forall_mem_cons.mp hbefore
    exact (firstAccepting_passed hq).trans (ih hrest)

theorem firstAccepting_of_passes (h : ∀ r ∈ rules, Passes s id r) :
    firstAccepting id rules s = .ok false s := by
  induction rules with
  | nil => rfl
  | cons r rules ih =>
    obtain ⟨hr, hrest⟩ := List.forall_mem_cons.mp h
    exact (firstAccepting_passed hr).trans (ih hrest)

end

/-! ## 5. One table for all rules -/

/-- Tries rules with one table of captures that is cleared behind each of them. -/
def firstAcceptingInTable (id : InstrId) : Captures → List (Rule σ) → Replacing σ Bool
  | _, [] => return false
  | table, r :: rest => do
    let p ← program
    let (found, table) := r.pattern.elim (false, table) fun q => q.attempt p (.instr id) table
    if found then
      if ← offer r id table then return true
    firstAcceptingInTable id [] rest

theorem firstAccepting_inTable (id : InstrId) (rules : List (Rule σ)) :
    firstAcceptingInTable id [] rules = firstAccepting id rules := by
  induction rules with
  | nil => rfl
  | cons r rules ih =>
    unfold firstAcceptingInTable firstAccepting
    refine bind_congr fun p => ?_
    cases hpattern : r.pattern with
    | none =>
      rw [match?, hpattern]
      exact ih
    | some q =>
      rw [match?, hpattern, Option.bind_some, Pattern.match?, Option.elim_some, ih]
      obtain ⟨found, table⟩ := q.attempt p (.instr id) []
      cases found <;> rfl

/-! ## 6. Rule sets on live instructions -/

/-- Success, failure and decline of a rule set, each by the first rule that matches and does not
    decline. A rule set that declines leaves the state as it was. -/
theorem applyFirst_decided {rules : List (Rule σ)} (h : Installed rules) (s : RuleState σ)
    {id : InstrId} (hlive : (s.program.instr id).erased = false) :
    (∀ s', applyFirst rules id s = .ok true s' ↔ Decides s id rules (.ok true s')) ∧
    (∀ e s', applyFirst rules id s = .error e s' ↔ Decides s id rules (.error e s')) ∧
    (∀ s', applyFirst rules id s = .ok false s' ↔ s' = s ∧ ∀ r ∈ rules, Passes s id r) ∧
    applyFirst rules id s = firstAcceptingInTable id [] rules s := by
  have happly : applyFirst rules id s = firstAccepting id rules s := by
    have hprogram : (program : Replacing σ Program) s = .ok s.program s := rfl
    unfold applyFirst
    rw [bind_of_ok hprogram, hlive]
    rfl
  have hsettles : ∀ result, Conclusive result →
      (firstAccepting id rules s = result ↔ Decides s id rules result) := by
    intro result hsettled
    refine ⟨?_, fun hd => hd.firstAccepting_eq hsettled⟩
    rintro rfl
    rcases firstAccepting_decided h.free s id with ⟨-, hrun⟩ | ⟨hd, -⟩
    · exact absurd hrun (hsettled s)
    · exact hd
  rw [happly, firstAccepting_inTable]
  refine ⟨fun s' => hsettles _ nofun, fun e s' => hsettles _ nofun, fun s' => ⟨fun hrun => ?_, ?_⟩, rfl⟩
  · rcases firstAccepting_decided h.free s id with ⟨hall, hrun'⟩ | ⟨-, hsettled⟩
    · rw [hrun] at hrun'
      cases hrun'
      exact ⟨rfl, hall⟩
    · exact absurd hrun (hsettled s')
  · rintro ⟨rfl, hall⟩
    exact firstAccepting_of_passes hall

/-- A qubit at an address that no allocator knows is released. -/
def strayRelease : Program where
  name := "strayRelease"
  namedTypes := [("Qubit", none)]
  functions := #[
    ⟨"__quantum__rt__qubit_release", .void, [⟨none, .ptr (.named "Qubit")⟩], false, none, none, [],
      [], false⟩,
    ⟨"Main", .void, [], false, none, none, [], [⟨0⟩], false⟩]
  blocks := #[⟨some "entry", some ⟨1⟩, [⟨0⟩, ⟨1⟩], false⟩]
  instrs := #[
    ⟨.call .none, .void, [.cast .inttoptr (.int 64 (-1)) (.ptr (.named "Qubit")), .func ⟨0⟩], none,
      some ⟨0⟩, false⟩,
    ⟨.ret, .void, [], none, some ⟨0⟩, false⟩]

theorem applyFirst_decided_strayRelease :
    (strayRelease.instr ⟨0⟩).erased = false ∧ Installed ({} : RuleSettings).rules ∧
    ∃ s', s'.scheduled = [⟨⟨0⟩, none⟩] ∧ Decides { program := strayRelease, extra := {} } ⟨0⟩
      ({} : RuleSettings).rules (.ok true s') := by
  have hlive : (strayRelease.instr ⟨0⟩).erased = false := by decide
  obtain ⟨accepted, s', hrun, rfl, hscheduled⟩ := exists_answer
    (r := applyFirst ({} : RuleSettings).rules ⟨0⟩ { program := strayRelease, extra := {} })
    (P := fun accepted s' => accepted = true ∧ s'.scheduled = [⟨⟨0⟩, none⟩]) (by decide +kernel)
  exact ⟨hlive, installed_rules {}, s', hscheduled,
    ((applyFirst_decided (installed_rules {}) { program := strayRelease, extra := {} } hlive).1
      s').mp hrun⟩

end Replacing

end QirProfile
