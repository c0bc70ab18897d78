import QirProfile.Proofs.Assembly.FollowingUnits

/-!
# Attribute groups behind the arguments of a call

A call is read as a call site, which ends with the closing parenthesis of its arguments, and what stands
behind it. Attribute groups there are passed over, unless there are no arguments.
-/

namespace QirProfile.Assembly

/-- The operation is a call or an invoke. -/
def Operation.isCall : Operation → Bool
  | call .. | invoke .. => true
  | _ => false

/-- The arguments of a call or an invoke. -/
def Operation.callArgs : Operation → List TypedTerm
  | call _ _ _ args | invoke _ _ args _ _ => args
  | _ => []

namespace Reader

open Follow

variable {α β : Type} {r : Reader α} {f f' : α → Reader β} {P : α → Prop} {Q : β → Prop}

/-! ## 1. Answers -/

/-- Every answer of the reader satisfies `P`. -/
def Answers (P : α → Prop) (r : Reader α) : Prop := ∀ c a c', r c = .ok (a, c') → P a

theorem answers_pure {a : α} (h : P a) : Answers P (pure a : Reader α) := by
  rintro c b c' hrun
  cases hrun
  exact h

theorem answers_bind (hf : ∀ a, Answers Q (f a)) : Answers Q (r >>= f) := by
  intro c b c' hrun
  obtain ⟨a, c₁, -, hb⟩ := bind_ok.mp hrun
  exact hf a c₁ b c' hb

theorem answers_refused {e : ReadError} : Answers P (throw e : Reader α) := nofun

theorem answers_repeatStep {σ : Type} {step : σ → Reader (Step σ β)} {I : σ → Prop} {s : σ}
    (hs : I s) (h : ∀ s, I s → Answers (fun x => match x with
      | .again s => I s
      | .done b => Q b) (step s)) : Answers Q (repeatStep step s) := by
  intro c b c' hrun
  obtain ⟨s₁, c₁, hw, hdone⟩ := walks_of_repeatFuel hrun
  have hI : I s₁ := by
    clear hdone hrun
    induction hw with
    | here => exact hs
    | again hstep _ ih => exact ih (h _ hs _ _ _ hstep)
  exact h s₁ hI c₁ _ c' hdone

theorem bind_congr_of (h : Answers P r) (hf : ∀ a, P a → f a = f' a) : r >>= f = r >>= f' := by
  funext c
  change (r c >>= _) = (r c >>= _)
  cases hr : r c with
  | error e => rfl
  | ok x => exact congrFun (hf x.1 (h c x.1 x.2 hr)) x.2

/-! ## 2. Call sites -/

/-- A call up to the closing parenthesis of its arguments; an invoke has no marker. -/
structure CallSite where
  result : Option Symbol
  line : Nat
  marker : Option TailMarker
  ret : Ty
  callee : Term
  args : List TypedTerm

/-- Whether a call starts with the word. -/
def isCallWord (word : String) : Bool :=
  ["call", "tail", "musttail", "notail", "invoke"].contains word

/-- The marker of a call that starts with the word. -/
def callMarker : String → Reader (Option TailMarker)
  | "call" => return some .none
  | "tail" => do
    expectWord "call"
    return some .tail
  | "musttail" => do
    expectWord "call"
    return some .mustTail
  | "notail" => do
    expectWord "call"
    return some .noTail
  | _ => return none

/-- A call site behind its first word. -/
def callParts (result : Option Symbol) (word : String) (line : Nat) : Reader CallSite := do
  let marker ← callMarker word
  let ret ← callResult
  let callee ← term
  expect .leftParen
  return ⟨result, line, marker, ret, callee, ← commaList .rightParen typedTerm⟩

/-- A call site behind the symbol that it defines. -/
def callSiteBody (result : Option Symbol) : Reader CallSite := do
  match ← next "expected instruction" with
  | .keyword word =>
    let line := (← get).line
    if isCallWord word then callParts result word line else unexpected "call" (.keyword word)
  | other => unexpected "call" other

/-- A call up to the closing parenthesis of its arguments. -/
def callSite : Reader CallSite := result? >>= callSiteBody

/-- Passes over attribute groups. -/
def passGroups : Reader Unit := repeatStep groupStep ()

/-- Passes over the groups behind a list of arguments, except behind an empty one. -/
def groupsBehind (args : List TypedTerm) : Reader Unit :=
  if args = [] then pure () else passGroups

/-- What stands behind a call site: groups, and where an invoke goes on. -/
def callOperation (site : CallSite) : Reader Operation := do
  groupsBehind site.args
  match site.marker with
  | some marker => return .call marker site.ret site.callee site.args
  | none =>
    expectWord "to"
    let normal ← label
    expectWord "unwind"
    return .invoke site.ret site.callee site.args normal (← label)

/-- The rest of a call. -/
def callRest (site : CallSite) : Reader InstrTree := do
  let op ← callOperation site
  return ⟨site.result, ← trailing op, site.line⟩

theorem commaSeparated_ne_nil {item : Reader α} : Answers (· ≠ []) (commaSeparated item) := by
  refine answers_repeatStep (I := fun _ => True) trivial fun items _ => answers_bind fun a =>
    answers_bind fun more => ?_
  split
  · exact answers_pure trivial
  · exact answers_pure (by simp)

theorem callArguments_eq : callArguments = (do
    expect .leftParen
    let args ← commaList .rightParen typedTerm
    groupsBehind args
    return args) := by
  refine bind_congr fun _ => ?_
  simp only [commaList, bind_assoc]
  refine bind_congr fun closed => ?_
  cases closed with
  | true => rfl
  | false =>
    simp only [Bool.false_eq_true, if_false, bind_assoc]
    refine bind_congr_of commaSeparated_ne_nil fun args hargs => ?_
    simp only [pure_bind, groupsBehind, if_neg hargs]
    rfl

/-! ## 3. Calls by their call sites -/

theorem operation_eq {word : String} (h : isCallWord word = true) (result : Option Symbol) (line : Nat) :
    operation word line = callParts result word line >>= callOperation := by
  have hwords : word = "call" ∨ word = "tail" ∨ word = "musttail" ∨ word = "notail" ∨
      word = "invoke" := by
    simpa [isCallWord] using h
  rcases hwords with rfl | rfl | rfl | rfl | rfl
  case inr.inr.inr.inr =>
    have hmarker : callMarker "invoke" = pure none := rfl
    simp only [operation, invoke, callArguments_eq, callParts, hmarker, callOperation, bind_assoc,
      pure_bind]
  all_goals
    simp only [operation, markedCall, call, callArguments_eq, callParts, callMarker, callOperation,
      bind_assoc, pure_bind]

theorem answers_operation {word : String} (h : isCallWord word = false) (line : Nat) :
    Answers (·.isCall = false) (operation word line) := by
  unfold operation branch switch
  split
  all_goals first
    | exact absurd h (by decide)
    | repeat first
      | exact answers_pure rfl
      | exact answers_refused
      | refine answers_bind fun _ => ?_
      | split

theorem withAlign_call (align : Nat) (op : Operation) :
    (op.withAlign align).isCall = op.isCall ∧ (op.withAlign align).callArgs = op.callArgs := by
  cases op <;> exact ⟨rfl, rfl⟩

theorem answers_trailing (op : Operation) :
    Answers (fun op' => op'.isCall = op.isCall ∧ op'.callArgs = op.callArgs) (trailing op) := by
  refine answers_repeatStep (I := fun op' => op'.isCall = op.isCall ∧ op'.callArgs = op.callArgs)
    ⟨rfl, rfl⟩ fun op' hop => answers_bind fun comma => answers_bind fun behind => ?_
  split
  · refine answers_bind fun _ => answers_bind fun align => ?_
    split
    · refine answers_bind fun n => answers_pure ?_
      obtain ⟨hcall, hargs⟩ := withAlign_call n op'
      exact ⟨hcall.trans hop.1, hargs.trans hop.2⟩
    · exact answers_bind fun _ => answers_bind fun _ => answers_pure hop
  · exact answers_pure hop

variable {site : CallSite} {c c' c₁ : Cursor} {tree : InstrTree}

theorem answers_callParts (result : Option Symbol) (word : String) (line : Nat) :
    Answers (fun site => site.result = result ∧ site.line = line) (callParts result word line) :=
  answers_bind fun _ => answers_bind fun _ => answers_bind fun _ => answers_bind fun _ =>
    answers_bind fun _ => answers_pure ⟨rfl, rfl⟩

theorem answers_callOperation (site : CallSite) :
    Answers (·.callArgs = site.args) (callOperation site) := by
  refine answers_bind fun _ => ?_
  split
  · exact answers_pure rfl
  · exact answers_bind fun _ => answers_bind fun _ => answers_bind fun _ => answers_bind fun _ =>
      answers_pure rfl

theorem instruction_of_callSite (h : callSite c = .ok (site, c₁)) :
    instruction c = callRest site c₁ := by
  obtain ⟨result, c₂, hresult, h⟩ := bind_ok.mp h
  obtain ⟨t, c₃, ht, h⟩ := bind_ok.mp h
  rw [instruction_eq, bind_run hresult, instructionBody, bind_run ht]
  cases t with
  | keyword word =>
    change (if isCallWord word then callParts result word c₃.line
      else unexpected "call" (.keyword word)) c₃ = _ at h
    split at h
    · rename_i hword
      obtain ⟨hsite, hline⟩ := answers_callParts result word c₃.line c₃ site c₁ h
      change (operation word c₃.line >>= fun op => trailing op >>= fun op =>
        pure (⟨result, op, c₃.line⟩ : InstrTree)) c₃ = _
      rw [operation_eq hword result, bind_assoc, bind_run h, callRest, hsite, hline]
    · cases h
  | _ => cases h

theorem callSite_of_instruction (h : instruction c = .ok (tree, c'))
    (hcall : tree.operation.isCall = true) : ∃ site c₁, callSite c = .ok (site, c₁) ∧
      callRest site c₁ = .ok (tree, c') ∧ site.args = tree.operation.callArgs := by
  obtain ⟨result, c₂, hresult, h⟩ := bind_ok.mp h
  obtain ⟨t, c₃, ht, h⟩ := bind_ok.mp h
  cases t with
  | keyword word =>
    change (operation word c₃.line >>= fun op => trailing op >>= fun op =>
      pure (⟨result, op, c₃.line⟩ : InstrTree)) c₃ = _ at h
    obtain ⟨op, c₄, hop, h⟩ := bind_ok.mp h
    obtain ⟨op', c₅, htrailing, h⟩ := bind_ok.mp h
    cases h
    obtain ⟨hsame, hargs⟩ := answers_trailing op c₄ op' c' htrailing
    have hword : isCallWord word = true := by
      by_contra hword
      have hother := answers_operation (Bool.not_eq_true _ ▸ hword) c₃.line c₃ op c₄ hop
      rw [hsame, hother] at hcall
      cases hcall
    rw [operation_eq hword result] at hop
    obtain ⟨site, c₁, hsite, hop⟩ := bind_ok.mp hop
    refine ⟨site, c₁, bind_ok.mpr ⟨result, c₂, hresult, bind_ok.mpr ⟨_, c₃, ht, ?_⟩⟩, ?_, ?_⟩
    · change (if isCallWord word then callParts result word c₃.line
        else unexpected "call" (.keyword word)) c₃ = _
      rw [if_pos hword, hsite]
    · obtain ⟨hresult', hline⟩ := answers_callParts result word c₃.line c₃ site c₁ hsite
      rw [callRest, bind_run hop, bind_run htrailing, hresult', hline]
      rfl
    · exact (answers_callOperation site c₁ op c₄ hop).symm.trans hargs.symm
  | _ => cases h

/-! ## 4. In front of anything -/

theorem keeps_callMarker {k : Nat} {B : Follow} [Closed k B] (word : String) :
    Keeps k B 0 (callMarker word) := by
  unfold callMarker
  split
  · exact keeps_pure _
  · exact (keeps_last (keeps_expectWord _) fun _ => keeps_pure _).goes
  · exact (keeps_last (keeps_expectWord _) fun _ => keeps_pure _).goes
  · exact (keeps_last (keeps_expectWord _) fun _ => keeps_pure _).goes
  · exact keeps_pure _

theorem keeps_callParts {k : Nat} {B : Follow} [Closed k B] (result : Option Symbol) (word : String)
    (line : Nat) : Keeps k B 1 (callParts result word line) :=
  keeps_then (keeps_callMarker word) fun _ => keeps_then keeps_callResult fun _ =>
    keeps_then keeps_term fun _ => keeps_then (keeps_expect _) fun _ =>
    keeps_last (keeps_commaList _ keeps_typedTerm.goes) fun _ => keeps_pure _

theorem keeps_callSite {B : Follow} : Keeps 0 B 2 callSite := by
  refine Tracks.apart (tracks_result?_bind (by decide) (fun y ys zs hy _ => ?_) fun result => ?_)
  · match y with
    | x :: x' :: y => rfl
  · refine tracks_next_bind (n := 1) fun t line => ?_
    cases t with
    | keyword word =>
      let p : Reader CallSite := if isCallWord word then callParts result word line
        else unexpected "call" (.keyword word)
      refine ⟨p, p, fun _ => rfl, fun _ => rfl, ?_⟩
      by_cases hword : isCallWord word
      · simp only [p, if_pos hword]
        exact keeps_callParts result word line
      · simp only [p, if_neg hword]
        exact tracks_unexpected _ _
    | _ => exact ⟨_, _, fun _ => rfl, fun _ => rfl, tracks_unexpected _ _⟩

/-- The reader ends with the token. -/
def EndsWith (t : Token) (r : Reader α) : Prop :=
  ∀ c a c', r c = .ok (a, c') → ⟨t, c'.line⟩ :: c'.rest <:+ c.rest

theorem endsWith_bind {t : Token} {w : α → Nat} {P : α → Prop}
    (hr : ∀ {n}, Proceeds False Anything n w P r) (hf : ∀ a, EndsWith t (f a)) :
    EndsWith t (r >>= f) := by
  intro c b c' hrun
  obtain ⟨a, c₁, ha, hb⟩ := bind_ok.mp hrun
  exact (hf a c₁ b c' hb).trans (hr.run (Nat.lt_succ_self c.rest.length) ha).1

theorem endsWith_map {t : Token} {φ : α → β} (hr : EndsWith t r) :
    EndsWith t (r >>= fun a => pure (φ a)) := by
  intro c b c' hrun
  obtain ⟨a, c₁, ha, hb⟩ := bind_ok.mp hrun
  cases hb
  exact hr c a c' ha

theorem endsWith_accept {t : Token} {c c' : Cursor} (h : accept t c = .ok (true, c')) :
    ⟨t, c'.line⟩ :: c'.rest <:+ c.rest := by
  obtain ⟨here, c₂, hat, htake⟩ := bind_ok.mp h
  cases hat
  split at htake
  · rename_i hhere
    obtain ⟨_ | ⟨⟨t', l⟩, rest⟩, line⟩ := c
    · cases hhere
    · obtain rfl : t' = t := by simpa using hhere
      cases htake
      exact List.suffix_rfl
  · cases htake

theorem endsWith_expect (t : Token) : EndsWith t (expect t) := by
  rintro ⟨_ | ⟨⟨t', l⟩, rest⟩, line⟩ a c' hrun
  · cases hrun
  · change (if t' ≠ t then unexpected t.text t' else pure ()) ⟨rest, l⟩ = _ at hrun
    split at hrun
    · cases hrun
    · rename_i heq
      obtain rfl := not_not.mp heq
      cases hrun
      exact List.suffix_rfl

theorem endsWith_commaList {close : Token} {item : Reader α} {P : α → Prop}
    (h : ∀ {n}, Goes n item P) : EndsWith close (commaList close item) := by
  intro c items c' hrun
  obtain ⟨closed, c₁, hclosed, hrun⟩ := bind_ok.mp hrun
  cases closed with
  | true =>
    cases hrun
    exact endsWith_accept hclosed
  | false =>
    have htook := (goes_accept close).run (Nat.lt_succ_self c.rest.length) hclosed
    refine (endsWith_bind (goes_commaSeparated h) (fun items => ?_) c₁ items c' hrun).trans htook.1
    exact endsWith_map (endsWith_expect close)

theorem goes_callMarker {n : Nat} (word : String) : Goes n (callMarker word) := by
  unfold callMarker
  split
  · exact goes_return _
  · exact proceeds_seq (consumes_expectWord _) fun _ => goes_return _
  · exact proceeds_seq (consumes_expectWord _) fun _ => goes_return _
  · exact proceeds_seq (consumes_expectWord _) fun _ => goes_return _
  · exact goes_return _

theorem endsWith_callSite : EndsWith .rightParen callSite := by
  refine endsWith_bind goes_result? fun result =>
    endsWith_bind (consumes_next (by decide)) fun t => ?_
  split
  · refine endsWith_bind goes_get fun at' => ?_
    dsimp only
    split
    · exact endsWith_bind (goes_callMarker _) fun _ => endsWith_bind goes_callResult fun _ =>
        endsWith_bind consumes_term fun _ => endsWith_bind (consumes_expect _) fun _ =>
        endsWith_map (endsWith_commaList consumes_typedTerm.moves)
    · nofun
  · nofun

theorem callSite_split (h : callSite c = .ok (site, c₁)) :
    ∃ xs, c.rest = xs ++ ⟨.rightParen, c₁.line⟩ :: c₁.rest ∧
      ∀ zs, c₁.rest.length ≤ zs.length → ∀ line,
        callSite ⟨xs ++ ⟨.rightParen, c₁.line⟩ :: zs, line⟩ = .ok (site, ⟨zs, c₁.line⟩) := by
  obtain ⟨xs, hxs⟩ := endsWith_callSite c site c₁ h
  refine ⟨xs, hxs.symm, fun zs hlength line => ?_⟩
  obtain ⟨ys, hys, -, hbehind⟩ := keeps_callSite (B := fun _ _ => True) c site c₁ (Nat.zero_le _) h
  have hys' : ys = xs ++ [⟨.rightParen, c₁.line⟩] := by
    have hrest : (xs ++ [⟨.rightParen, c₁.line⟩]) ++ c₁.rest = ys ++ c₁.rest := by
      rw [← hys, ← hxs, List.append_assoc]
      rfl
    exact (List.append_cancel_right hrest).symm
  obtain ⟨line', hrun⟩ := hbehind zs hlength trivial line
  rw [Lexeme.moved_zero, List.map_id, hys', List.append_assoc] at hrun
  obtain ⟨xs', hxs'⟩ := endsWith_callSite _ site _ hrun
  have hlast := List.append_inj_right' hxs' rfl
  obtain rfl : line' = c₁.line := congrArg Lexeme.line (List.cons_eq_cons.mp hlast).1
  exact hrun

/-! ## 5. Groups behind a call site -/

/-- The lexemes of attribute groups in a line. -/
def groupLexemes (line : Nat) (ns : List Nat) : List Lexeme :=
  ns.map fun n => ⟨.groupId n, line⟩

theorem passGroups_groups (line : Nat) (ns : List Nat) (zs : List Lexeme) :
    passGroups ⟨groupLexemes line ns ++ zs, line⟩ = passGroups ⟨zs, line⟩ := by
  induction ns with
  | nil => rfl
  | cons n ns ih =>
    rw [← ih]
    have hstep : groupStep () ⟨groupLexemes line (n :: ns) ++ zs, line⟩ =
        .ok (.again (), ⟨groupLexemes line ns ++ zs, line⟩) := rfl
    exact (Walks.again hstep .here).repeatStep_eq fun _ => steps_groupStep

theorem callRest_groups (h : site.args ≠ []) (line : Nat) (ns : List Nat) (zs : List Lexeme) :
    callRest site ⟨groupLexemes line ns ++ zs, line⟩ = callRest site ⟨zs, line⟩ := by
  have hpass : groupsBehind site.args ⟨groupLexemes line ns ++ zs, line⟩ =
      groupsBehind site.args ⟨zs, line⟩ := by
    rw [groupsBehind, if_neg h]
    exact passGroups_groups line ns zs
  change (groupsBehind site.args _ >>= _) >>= _ = (groupsBehind site.args _ >>= _) >>= _
  rw [hpass]

theorem bodyStep_of_callSite (h : callSite c = .ok (site, c₁)) (blocks : List BlockTree) :
    bodyStep blocks c = (callRest site >>= fun i => pure (.again (pushInstr blocks i))) c₁ := by
  change _ = (callRest site c₁ >>= _)
  rw [← instruction_of_callSite h]
  obtain ⟨_ | ⟨⟨t, l⟩, rest⟩, line⟩ := c
  · cases h
  · cases t with
    | rightBrace | labelName | labelId => cases h
    | _ => rfl

theorem body_groups {line : Nat} {ns : List Nat} {zs : List Lexeme} (hargs : site.args ≠ [])
    (h : callSite c = .ok (site, ⟨zs, line⟩))
    (h' : callSite c' = .ok (site, ⟨groupLexemes line ns ++ zs, line⟩)) (blocks : List BlockTree) :
    repeatStep bodyStep blocks c' = repeatStep bodyStep blocks c := by
  have hstep : bodyStep blocks c' = bodyStep blocks c := by
    rw [bodyStep_of_callSite h, bodyStep_of_callSite h']
    change (callRest site _ >>= _) = (callRest site _ >>= _)
    rw [callRest_groups hargs]
  rw [repeatStep_unfold fun _ _ => steps_bodyStep False.elim]
  change (bodyStep blocks c' >>= _) = (bodyStep blocks c >>= _)
  rw [hstep]

theorem trailing_stops (op : Operation) (h : nextToken c.rest ≠ some .comma) :
    trailing op c = .ok (op, c) := by
  have hcomma : at? .comma c = .ok (false, c) := by
    change Except.ok (nextToken c.rest == some .comma, c) = _
    rw [beq_false_of_ne h]
  rw [trailing, repeatStep, bind_run (show (get : Reader Cursor) c = .ok (c, c) from rfl),
    repeatFuel_succ, bind_assoc, bind_run hcomma, bind_assoc, bind_run (atTrailing?_run c)]
  rfl

theorem body_refuses_group {n line : Nat} {zs : List Lexeme} (hargs : site.args = [])
    (h : callSite c = .ok (site, ⟨⟨.groupId n, line⟩ :: zs, line⟩)) (blocks : List BlockTree) :
    ∃ expected, repeatStep bodyStep blocks c =
      .error (.unexpectedToken line expected (Token.groupId n).text) := by
  have hstep := bodyStep_of_callSite h blocks
  have hpass : groupsBehind site.args = pure () := if_pos hargs
  rw [callRest, callOperation, hpass] at hstep
  cases hmarker : site.marker with
  | some marker =>
    -- The call is answered, and the group is taken for the next instruction.
    have hgroup : nextToken (⟨.groupId n, line⟩ :: zs) ≠ some .comma := by simp [nextToken]
    simp only [hmarker, bind_assoc, pure_bind] at hstep
    rw [bind_run (trailing_stops _ hgroup)] at hstep
    exact ⟨_, Walks.repeatStep_error (fun _ _ => steps_bodyStep False.elim) (.again hstep .here) rfl⟩
  | none =>
    simp only [hmarker] at hstep
    exact ⟨_, Walks.repeatStep_error (fun _ _ => steps_bodyStep False.elim) .here hstep⟩

end Reader

open Reader

/-! ## 6. Texts -/

/-- References to attribute groups, between blanks. -/
def groupsText : List Nat → String
  | [] => " "
  | n :: ns => " #" ++ toString n ++ groupsText ns

theorem cuts_groups {line : Nat} {v : List Char} {zs : List Lexeme} (h : Cuts line v zs)
    {ns : List Nat} (hns : ∀ n ∈ ns, n < span 32) :
    Cuts line ((groupsText ns).toList ++ v) (groupLexemes line ns ++ zs) := by
  induction ns with
  | nil => exact .blank rfl h
  | cons n ns ih =>
    have hn := hns n List.mem_cons_self
    have hblank : Apart ((groupsText ns).toList ++ v) := by
      cases ns with
      | nil => exact (by decide : isApart ' ' = true)
      | cons m ns =>
        rw [groupsText, String.toList_append, String.toList_append]
        exact (by decide : isApart ' ' = true)
    have htext : (groupsText (n :: ns)).toList ++ v =
        ' ' :: '#' :: (Nat.toDigits 10 n ++ ((groupsText ns).toList ++ v)) := by
      rw [groupsText, String.toList_append, String.toList_append, toList_toString]
      simp
    rw [htext]
    refine .blank rfl (.of_scan rfl (by decide) (scan_groupId hn hblank) ?_)
    have hline : ('#' :: Nat.toDigits 10 n).count '\n' = 0 := by
      refine List.count_eq_zero.mpr fun hmem => ?_
      rcases List.mem_cons.mp hmem with h | h
      · exact absurd h (by decide)
      · exact absurd (isDigit_toDigits n _ h) (by decide)
    rw [hline]
    exact ih fun m hm => hns m (List.mem_cons_of_mem n hm)

/-- Attribute groups behind the parenthesis of a call are passed over if it has arguments, and
    refused if it has none. -/
theorem call_groups {source : String} {xs : List Lexeme} {tree : InstrTree} {c : Cursor}
    (hlex : tokens source = .ok xs) (hrun : instruction ⟨xs, 1⟩ = .ok (tree, c))
    (hcall : tree.operation.isCall = true) :
    ∃ (before behind : String) (ys zs : List Lexeme) (line : Nat) (site : CallSite),
      source = before ++ ")" ++ behind ∧ xs = ys ++ ⟨.rightParen, line⟩ :: zs ∧
      callSite ⟨xs, 1⟩ = .ok (site, ⟨zs, line⟩) ∧ site.args = tree.operation.callArgs ∧
      ∀ n ns, (∀ m ∈ n :: ns, m < span 32) → ∃ xs',
        tokens (before ++ ")" ++ groupsText (n :: ns) ++ behind) = .ok xs' ∧
        xs' = ys ++ ⟨.rightParen, line⟩ :: (groupLexemes line (n :: ns) ++ zs) ∧
        (tree.operation.callArgs ≠ [] → instruction ⟨xs', 1⟩ = .ok (tree, c) ∧
          ∀ blocks, repeatStep bodyStep blocks ⟨xs', 1⟩ = repeatStep bodyStep blocks ⟨xs, 1⟩) ∧
        (tree.operation.callArgs = [] → ∀ blocks, ∃ expected,
          repeatStep bodyStep blocks ⟨xs', 1⟩ =
            .error (.unexpectedToken line expected (Token.groupId n).text)) := by
  obtain ⟨site, c₁, hsite, hrest, hargs⟩ := callSite_of_instruction hrun hcall
  obtain ⟨ys, hys, hbehind⟩ := callSite_split hsite
  obtain ⟨u, v, hu, hv, hcuts⟩ := (tokens_iff.mp hlex).split hys
  have hsource : source = String.ofList u ++ ")" ++ String.ofList v := by
    refine String.toList_inj.mp ?_
    rw [hu]
    simp
  refine ⟨String.ofList u, String.ofList v, ys, c₁.rest, c₁.line, site, hsource, hys, hsite, hargs,
    fun n ns hns => ⟨_, ?_, rfl, ?_⟩⟩
  · have htext := hcuts _ _ (cuts_groups hv hns)
    rw [tokens_iff]
    simpa using htext
  · have hgroups := hbehind (groupLexemes c₁.line (n :: ns) ++ c₁.rest)
      (by simp) 1
    rw [← hargs]
    refine ⟨fun hne => ⟨?_, body_groups hne hsite hgroups⟩, fun hnil => body_refuses_group hnil hgroups⟩
    rw [instruction_of_callSite hgroups, callRest_groups hne]
    exact hrest

/-- A call with an argument, and the end of its body. -/
def callText : String := "%r = call i64 @f(i64 1)\n  ret void\n\x7d"

theorem callText_groups : ∃ xs tree c, tokens callText = .ok xs ∧
    instruction ⟨xs, 1⟩ = .ok (tree, c) ∧ tree.operation.isCall = true ∧
    ∃ before behind, callText = before ++ ")" ++ behind ∧ ∃ xs',
      tokens (before ++ ")" ++ groupsText [0] ++ behind) = .ok xs' ∧
      instruction ⟨xs', 1⟩ = .ok (tree, c) := by
  have hcall : ((tokens callText).toOption.bind fun xs =>
      (instruction ⟨xs, 1⟩).toOption.map fun x =>
        (x.1.operation.isCall, x.1.operation.callArgs.length)) = some (true, 1) := by
    decide +kernel
  obtain ⟨xs, hxs, hcall⟩ := Option.bind_eq_some_iff.mp hcall
  obtain ⟨⟨tree, c⟩, hrun, hboth⟩ := Option.map_eq_some_iff.mp hcall
  have hlex := ok_of_toOption hxs
  have hrun := ok_of_toOption hrun
  obtain ⟨hiscall, hlength⟩ := Prod.mk.inj hboth
  have hargs : tree.operation.callArgs ≠ [] := List.ne_nil_of_length_pos (hlength ▸ Nat.one_pos)
  obtain ⟨before, behind, _, _, _, _, hsource, _, _, _, hgroups⟩ := call_groups hlex hrun hiscall
  obtain ⟨xs', hlex', -, hsame, -⟩ := hgroups 0 [] (by decide)
  exact ⟨xs, tree, c, hlex, hrun, hiscall, before, behind, hsource, xs', hlex', (hsame hargs).1⟩

/-- A function that calls another one without arguments, with groups behind the call. -/
def emptyCall (groups : String) : String :=
  "define void @f() \x7b\nentry:\n  call void @g()" ++ groups ++ "\n  ret void\n\x7d\n"

/-- Behind a call without arguments a group is refused. -/
theorem emptyCall_group : (readTree (emptyCall "")).isOk = true ∧
    readTree (emptyCall " #0") = .error (.unexpectedToken 3 "instruction" "#0") :=
  ⟨by decide +kernel, error_of_map (by decide +kernel)⟩

end QirProfile.Assembly
