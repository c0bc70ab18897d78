import QirProfile.Proofs.Assembly.Following
import QirProfile.Proofs.Assembly.ProceedingUnits

/-!
# What follows an instruction or an entity

Instructions keep the line they stand on, so a tree that is read further down is the same tree on
later lines (`moved`). An instruction looks at the token behind a comma, and the last part of an entity
at the start of the next one.
-/

namespace QirProfile.Assembly

/-! ## 1. Trees further down -/

/-- The instruction, so many lines further down. -/
def InstrTree.moved (k : Nat) (i : InstrTree) : InstrTree :=
  { i with line := i.line + k }

/-- The block, so many lines further down. -/
def BlockTree.moved (k : Nat) (b : BlockTree) : BlockTree :=
  { b with instrs := b.instrs.map (·.moved k) }

/-- The function, so many lines further down. -/
def FuncTree.moved (k : Nat) (t : FuncTree) : FuncTree :=
  { t with blocks := t.blocks.map (·.moved k) }

namespace Reader

open Follow

variable {α β γ δ : Type} {k m n : Nat} {B : Follow} {g : α → γ} {r : Reader α} {r' : Reader γ}

/-! ## 2. Operations -/

theorem keeps_branch [Closed k B] : Keeps k B 1 branch :=
  keeps_at?_bind nofun (keeps_last keeps_label fun _ => keeps_pure _).ahead <|
    keeps_then keeps_typedTerm fun _ => keeps_then (keeps_expect _) fun _ =>
    keeps_then keeps_label fun _ => keeps_then (keeps_expect _) fun _ =>
    keeps_last keeps_label fun _ => keeps_pure _

theorem keeps_switch [Closed k B] : Keeps k B 1 switch := by
  refine keeps_then keeps_typedTerm fun _ => keeps_then (keeps_expect _) fun _ =>
    keeps_then keeps_label fun _ => keeps_last (keeps_expect _) fun _ =>
    keeps_last (keeps_repeatStep fun cases => ?_) fun _ => keeps_pure _
  exact Tracks.goes (n := 1) (keeps_accept_taken (keeps_pure _) <|
    keeps_then keeps_typedTerm fun _ => keeps_then (keeps_expect _) fun _ =>
    keeps_last keeps_label fun _ => keeps_pure _)

theorem keeps_callResult : Keeps k Inner 1 callResult := by
  refine keeps_then (keeps_repeatStep fun _ => tracks_peek_inner (keeps_pure _) fun t => ?_)
    fun _ => keeps_last keeps_type fun t => ?_
  · split
    · split
      · exact keeps_pure _
      · exact keeps_last keeps_advance.goes fun _ => keeps_last keeps_skipParens fun _ => keeps_pure _
    · exact keeps_pure _
  · split
    · exact keeps_pure _
    · exact keeps_pure _

theorem keeps_callArguments [Quiet B] [Closed k B] : Keeps k B 1 callArguments := by
  refine keeps_last (keeps_expect _) fun _ => Tracks.goes (n := 1) (keeps_accept_taken (keeps_pure _) ?_)
  refine keeps_then (keeps_commaSeparated keeps_typedTerm.goes) fun _ =>
    keeps_last (keeps_expect _) fun _ =>
    keeps_last (keeps_repeatStep fun _ => tracks_peek_quiet (fun t ht => ?_) (keeps_pure _) fun t => ?_)
      fun _ => keeps_pure _
  · cases t <;> first
      | rfl
      | cases ht
  · split
    · exact keeps_last keeps_advance.goes fun _ => keeps_pure _
    · exact keeps_pure _

theorem keeps_call [Quiet B] [Closed k B] (marker : TailMarker) : Keeps k B 1 (call marker) :=
  keeps_then keeps_callResult fun _ => keeps_then keeps_term fun _ =>
    keeps_last keeps_callArguments fun _ => keeps_pure _

theorem keeps_markedCall [Quiet B] [Closed k B] (marker : TailMarker) :
    Keeps k B 1 (markedCall marker) :=
  keeps_then (keeps_expectWord _) fun _ => keeps_call marker

theorem keeps_invoke [Closed k B] : Keeps k B 1 invoke :=
  keeps_then keeps_callResult fun _ => keeps_then keeps_term fun _ =>
    keeps_then keeps_callArguments fun _ => keeps_then (keeps_expectWord _) fun _ =>
    keeps_then keeps_label fun _ => keeps_then (keeps_expectWord _) fun _ =>
    keeps_last keeps_label fun _ => keeps_pure _

theorem keeps_skipOperatorFlags : Keeps k Inner 0 skipOperatorFlags := by
  refine keeps_repeatStep fun _ => tracks_peek_inner (keeps_pure _) fun t => ?_
  split
  · split
    · exact keeps_last keeps_advance.goes fun _ => keeps_pure _
    · exact keeps_pure _
  · exact keeps_pure _

theorem keeps_comparison [Closed k B] : Keeps k B 1 comparison := by
  refine keeps_next_bind fun found => ?_
  split
  · split
    · exact keeps_pure _
    · exact tracks_unexpected _ _
  · exact tracks_unexpected _ _

theorem keeps_comma_bind {ε : Type} {look : Reader ε} {s : Option Token → ε} {φ : ε → Bool}
    {p q : Reader β} (hlook : ∀ c, look c = .ok (s (nextToken c.rest.tail), c))
    (hp : KeepsAhead k Steady 0 p) (hq : Keeps k Steady 0 q) : Keeps k Steady 0 (do
      let comma ← at? .comma
      let behind ← look
      if comma && φ behind then p else q) := by
  let v (xs : List Lexeme) : Bool := nextToken xs == some .comma && φ (s (nextToken xs.tail))
  let both : Reader Bool := fun c => .ok (v c.rest, c)
  have hboth : (do
      let comma ← at? .comma
      let behind ← look
      if comma && φ behind then p else q) = both >>= fun here => if here then p else q := by
    funext c
    rw [bind_run (show at? .comma c = .ok (nextToken c.rest == some .comma, c) from rfl),
      bind_run (hlook c)]
    rfl
  rw [hboth]
  refine tracks_look (v := v) (fun _ => rfl) Bool.toNat ?_ ?_ ?_
  · rintro (_ | ⟨x, xs⟩)
    · exact Nat.le_refl 0
    · exact (Bool.toNat_le _).trans (Nat.succ_pos _)
  · intro y ys zs _ _ hzs
    refine congrArg (fun here : Bool => if here then p else q) ?_
    match y with
    | [] =>
      change (nextToken zs == _ && φ (s (nextToken zs.tail))) =
        (nextToken ys == _ && φ (s (nextToken ys.tail)))
      rw [hzs.1.2]
      by_cases hcomma : nextToken ys = some .comma
      · rw [hzs.2 hcomma]
      · rw [beq_false_of_ne hcomma, Bool.false_and, Bool.false_and]
    | [x] =>
      change (_ && φ (s (nextToken zs))) = (_ && φ (s (nextToken ys)))
      rw [hzs.1.2]
      rfl
    | x :: x' :: y => rfl
  · rintro (_ | _)
    · exact hq
    · exact hp

theorem peekSecond_run (c : Cursor) : peekSecond c = .ok (nextToken c.rest.tail, c) := by
  obtain ⟨_ | ⟨x, _ | ⟨x', rest⟩⟩, line⟩ := c <;> rfl

/-- What `atTrailing?` sees behind the comma. -/
def isTrailing : Option Token → Bool
  | some (.metadataName _) => true
  | some t => t.isKeyword "align"
  | none => false

theorem atTrailing?_run (c : Cursor) : atTrailing? c = .ok (isTrailing (nextToken c.rest.tail), c) := by
  rw [atTrailing?, bind_run (peekSecond_run c)]
  cases nextToken c.rest.tail with
  | none => rfl
  | some t => cases t <;> rfl

theorem keeps_gepIndices : Keeps k Steady 0 gepIndices :=
  keeps_repeatStep fun _ => keeps_comma_bind atTrailing?_run
    (keeps_last keeps_advance.goes fun _ => keeps_last keeps_typedTerm.goes fun _ => keeps_pure _)
    (keeps_pure _)

theorem keeps_incoming : Keeps k Steady 0 incoming :=
  keeps_repeatStep fun _ => (keeps_then (keeps_expect _) fun _ => keeps_then keeps_term fun _ =>
    keeps_then (keeps_expect _) fun _ => keeps_then keeps_localSymbol fun _ =>
    keeps_last (keeps_expect _) fun _ => keeps_comma_bind (s := id) peekSecond_run
      (keeps_last keeps_advance.goes fun _ => keeps_pure _) (keeps_pure _)).goes

theorem keeps_advance_then {p : Reader β} (hp : Keeps k B 1 p) :
    Tracks k m B 1 id (advance >>= fun _ => p) (advance >>= fun _ => p) := by
  rintro ⟨_ | ⟨x, rest⟩, line⟩ b c' hm hrun
  · obtain ⟨x, hx, hn, -⟩ := hp ⟨[], line⟩ b c' (Nat.zero_le _) hrun
    rw [(List.append_eq_nil_iff.mp hx.symm).1] at hn
    cases hn
  · exact keeps_then keeps_advance (fun _ => hp) ⟨x :: rest, line⟩ b c' (Nat.succ_pos _) hrun

theorem keeps_trailing (op : Operation) : Keeps k Steady 0 (trailing op) := by
  refine keeps_repeatStep fun op => keeps_comma_bind atTrailing?_run ?_ (keeps_pure _)
  refine keeps_last keeps_advance.goes fun _ => keeps_accept_quiet (by decide) ?_ ?_
  · exact keeps_last keeps_number32.goes fun _ => keeps_pure _
  · exact (keeps_advance_then (keeps_last keeps_skipMetadata fun _ => keeps_pure _)).goes

theorem keeps_operation (word : String) (line : Nat) : Keeps k Steady 0 (operation word line) := by
  unfold operation
  split
  · exact Tracks.goes (n := 1) <|
      keeps_accept_taken (keeps_pure _) (keeps_last keeps_typedTerm fun _ => keeps_pure _)
  · exact keeps_branch.goes
  · exact keeps_switch.goes
  · exact keeps_pure _
  · exact (keeps_call _).goes
  · exact (keeps_markedCall _).goes
  · exact (keeps_markedCall _).goes
  · exact (keeps_markedCall _).goes
  · exact keeps_invoke.goes
  · exact (keeps_then keeps_comparison fun _ => keeps_then keeps_type fun _ =>
      keeps_then keeps_term fun _ => keeps_then (keeps_expect _) fun _ =>
      keeps_last keeps_term fun _ => keeps_pure _).goes
  · exact (keeps_then (keeps_accept (by decide)) fun _ => keeps_then keeps_type fun _ =>
      keeps_then (keeps_expect _) fun _ => keeps_last keeps_typedTerm fun _ => keeps_pure _).goes
  · exact (keeps_then (keeps_accept (by decide)) fun _ => keeps_then keeps_typedTerm fun _ =>
      keeps_then (keeps_expect _) fun _ => keeps_last keeps_typedTerm fun _ => keeps_pure _).goes
  · exact (keeps_last keeps_type fun _ => keeps_pure _).goes
  · exact (keeps_then (keeps_accept (by decide)) fun _ => keeps_then keeps_type fun _ =>
      keeps_then (keeps_expect _) fun _ => keeps_last keeps_typedTerm fun _ =>
      keeps_last keeps_gepIndices fun _ => keeps_pure _).goes
  · exact (keeps_then keeps_typedTerm fun _ => keeps_then (keeps_expect _) fun _ =>
      keeps_then keeps_typedTerm fun _ => keeps_then (keeps_expect _) fun _ =>
      keeps_last keeps_typedTerm fun _ => keeps_pure _).goes
  · exact (keeps_last keeps_type fun _ => keeps_last keeps_incoming fun _ => keeps_pure _).goes
  · split
    · exact (keeps_then keeps_skipOperatorFlags fun _ => keeps_then keeps_type fun _ =>
        keeps_then keeps_term fun _ => keeps_then (keeps_expect _) fun _ =>
        keeps_last keeps_term fun _ => keeps_pure _).goes
    · exact (keeps_then keeps_typedTerm fun _ => keeps_then (keeps_expectWord _) fun _ =>
        keeps_last keeps_type fun _ => keeps_pure _).goes
    · exact tracks_throw _

theorem extends_operation (word : String) (line line' : Nat) :
    Extends 0 (operation word line) (operation word line') := by
  unfold operation
  split <;> first
    | exact extends_refl _
    | split <;> first
      | exact extends_refl _
      | exact extends_throw _ _

/-! ## 3. Instructions -/

theorem Tracks.extends {r'' : Reader γ} (h : Tracks k m B n g r r') (hr : Extends 0 r' r'') :
    Tracks k m B n g r r'' := by
  intro c a c' hm hrun
  obtain ⟨x, hx, hn, htracks⟩ := h c a c' hm hrun
  refine ⟨x, hx, hn, fun zs hlength hzs line => ?_⟩
  obtain ⟨line', hrun'⟩ := htracks zs hlength hzs line
  exact ⟨line', hr.answers _ _ hrun'⟩

theorem tracks_next_bind [Closed k B] {context : String} {f : Token → Reader β}
    {f' : Token → Reader δ} {gb : β → δ}
    (h : ∀ t line, ∃ p p', (∀ rest, f t ⟨rest, line⟩ = p ⟨rest, line⟩) ∧
      (∀ rest, f' t ⟨rest, line + k⟩ = p' ⟨rest, line + k⟩) ∧ Tracks k 0 B n gb p p') :
    Tracks k m B (n + 1) gb (next context >>= f) (next context >>= f') := by
  rintro ⟨_ | ⟨⟨t, l⟩, rest⟩, line⟩ b c' hm hrun
  · cases hrun
  · have hnext : ∀ xs l₀, next context ⟨⟨t, l⟩ :: xs, l₀⟩ = .ok (t, ⟨xs, l⟩) := fun _ _ => rfl
    obtain ⟨p, p', hp, hp', htracks⟩ := h t l
    rw [bind_run (hnext rest line), hp rest] at hrun
    obtain ⟨x, hx, hn, hbehind⟩ := htracks _ b c' (Nat.zero_le _) hrun
    refine ⟨⟨t, l⟩ :: x, congrArg (_ :: ·) hx, Nat.succ_le_succ hn, fun zs hlength hzs line' => ?_⟩
    obtain ⟨line'', hrun'⟩ := hbehind zs hlength hzs (l + k)
    refine ⟨line'', ?_⟩
    rw [← hrun', ← hp']
    rfl

/-- An instruction behind the symbol that it defines. -/
def instructionBody (result : Option Symbol) : Reader InstrTree := do
  match ← next "expected instruction" with
  | .keyword word =>
    let line := (← get).line
    let op ← operation word line
    return ⟨result, ← trailing op, line⟩
  | other => unexpected "instruction" other

theorem instruction_eq : instruction = result? >>= instructionBody := rfl

theorem tracks_instructionBody (result : Option Symbol) : Tracks k m Steady 1 (InstrTree.moved k)
    (instructionBody result) (instructionBody result) := by
  refine tracks_next_bind fun t line => ?_
  cases t with
  | keyword word =>
    let p (line : Nat) : Reader InstrTree := do
      let op ← operation word line
      return ⟨result, ← trailing op, line⟩
    refine ⟨p line, p (line + k), fun _ => rfl, fun _ => rfl, ?_⟩
    refine tracks_last ((keeps_operation word line).extends
      (extends_operation word line (line + k))) fun op => ?_
    exact tracks_last (keeps_trailing op) fun op => tracks_pure _
  | _ => exact ⟨_, _, fun _ => rfl, fun _ => rfl, tracks_unexpected _ _⟩

/-- The symbol that an instruction defines, once its first two tokens are known. -/
def resultOf : Option Token → Option Token → Reader (Option Symbol)
  | some (.localName _), some .equals | some (.localId _), some .equals => do
    let symbol ← localSymbol
    expect .equals
    return some symbol
  | _, _ => return none

theorem result?_eq :
    result? = peek >>= fun first => peekSecond >>= fun second => resultOf first second := rfl

theorem keeps_resultOf (first second : Option Token) : Keeps k B 0 (resultOf first second) := by
  refine Tracks.apart ?_
  unfold resultOf
  split
  · exact (keeps_then keeps_localSymbol fun _ => keeps_last (keeps_expect _) fun _ => keeps_pure _).goes
  · exact (keeps_then keeps_localSymbol fun _ => keeps_last (keeps_expect _) fun _ => keeps_pure _).goes
  · exact keeps_pure _

theorem tracks_result?_bind {f : Option Symbol → Reader β} {f' : Option Symbol → Reader δ}
    {gb : β → δ} (hn : n ≠ 0)
    (hsee : ∀ y ys zs, n ≤ y.length → B ys zs →
      nextToken (y.map (·.moved k) ++ zs).tail = nextToken (y ++ ys).tail)
    (h : ∀ s, Tracks k 0 B n gb (f s) (f' s)) :
    Tracks k m B n gb (result? >>= f) (result? >>= f') := by
  have hsecond : ∀ {m} first, Tracks k m B n gb
      (peekSecond >>= fun second => resultOf first second >>= f)
      (peekSecond >>= fun second => resultOf first second >>= f') := by
    refine fun first => tracks_look (v := fun xs => nextToken xs.tail) peekSecond_run (fun _ => 0)
      (fun _ => Nat.zero_le _) (fun y ys zs _ hy hzs => by rw [hsee y ys zs hy hzs]) fun second => ?_
    exact tracks_bind (C := fun _ _ => True) (keeps_resultOf first second) h
      (fun _ _ _ _ _ => trivial) (Nat.le_add_left n 0)
  simp only [result?_eq, bind_assoc]
  exact tracks_peek (fun h0 => absurd h0 hn) (hsecond none) fun t => hsecond (some t)

theorem tracks_instruction : Tracks k m Steady 1 (InstrTree.moved k) instruction instruction := by
  rw [instruction_eq]
  refine tracks_result?_bind Nat.one_ne_zero (fun y ys zs hy hzs => ?_) tracks_instructionBody
  match y with
  | [x] => exact hzs.1.2
  | x :: x' :: y => rfl

/-! ## 4. Bodies -/

theorem pushInstr_moved (blocks : List BlockTree) (i : InstrTree) :
    (pushInstr blocks i).map (·.moved k) = pushInstr (blocks.map (·.moved k)) (i.moved k) := by
  unfold pushInstr
  rw [List.getLast?_map]
  cases blocks.getLast? with
  | none => rfl
  | some b => simp [BlockTree.moved, List.map_dropLast]

theorem body_ne_comma {fuel : Nat} {blocks : List BlockTree} {c : Cursor} {x : List BlockTree × Cursor}
    (h : repeatFuel bodyStep fuel blocks c = .ok x) : nextToken c.rest ≠ some .comma := by
  obtain ⟨_ | ⟨⟨t, l⟩, rest⟩, line⟩ := c
  · nofun
  · intro hcomma
    cases hcomma
    cases fuel <;> cases h

theorem tracks_bodyFuel (fuel : Nat) : ∀ blocks, Tracks k 0 B 1 (List.map (·.moved k))
    (repeatFuel bodyStep fuel blocks) (repeatFuel bodyStep fuel (blocks.map (·.moved k))) := by
  suffices h : ∀ blocks, Tracks k 0 (fun _ _ => True) 1 (List.map (·.moved k))
      (repeatFuel bodyStep fuel blocks) (repeatFuel bodyStep fuel (blocks.map (·.moved k))) from
    fun blocks => (h blocks).apart
  induction fuel with
  | zero => exact fun _ => tracks_throw _
  | succ fuel ih =>
    intro blocks
    have hagain : ∀ b : BlockTree, Tracks k 1 (fun _ _ => True) 1 (List.map (·.moved k))
        (advance >>= fun _ => repeatFuel bodyStep fuel (blocks ++ [b]))
        (advance >>= fun _ => repeatFuel bodyStep fuel (blocks.map (·.moved k) ++ [b.moved k])) := by
      intro b
      have hb := ih (blocks ++ [b])
      rw [List.map_append] at hb
      exact tracks_then keeps_advance fun _ => hb
    have hinstruction : Tracks k 1 (fun _ _ => True) 1 (List.map (·.moved k))
        (instruction >>= fun i => repeatFuel bodyStep fuel (pushInstr blocks i))
        (instruction >>= fun i => repeatFuel bodyStep fuel (pushInstr (blocks.map (·.moved k)) i)) := by
      refine tracks_bind_of (Q := fun xs => nextToken xs ≠ some .comma) tracks_instruction
        (fun i => ?_) (fun _ _ _ => body_ne_comma)
        (fun y ys zs hy hcomma _ => ?_) (Nat.le_add_left 1 1)
      · rw [← pushInstr_moved]
        exact ih (pushInstr blocks i)
      · obtain ⟨x, y, rfl⟩ := List.exists_cons_of_length_pos hy
        exact ⟨inner_append hy, fun h => absurd h hcomma⟩
    simp only [repeatFuel, bodyStep, bind_assoc]
    refine tracks_peek_taken (tracks_throw _) fun t => ?_
    cases t with
    | rightBrace =>
      simp only [bind_assoc, pure_bind]
      exact tracks_last keeps_advance fun _ => tracks_pure blocks
    | labelName name =>
      simp only [bind_assoc, pure_bind]
      exact hagain ⟨some (.named name), []⟩
    | labelId n =>
      simp only [bind_assoc, pure_bind]
      exact hagain ⟨some (.numbered n), []⟩
    | _ =>
      simp only [bind_assoc, pure_bind]
      exact hinstruction

theorem tracks_functionBody : Tracks k 0 B 1 (List.map (·.moved k)) functionBody functionBody := by
  rw [functionBody_eq]
  exact tracks_measured
    (fun hij => (extends_repeatFuel (fun _ => proceeds_zero) (fun _ => extends_refl _) hij []).answers)
    fun fuel => tracks_bodyFuel fuel []

/-! ## 5. Attributes -/

/-- A word with a group that is kept as it is written. -/
def groupAttribute (word : String) : Reader Attribute := do
  let before := (← get).rest
  skipGroup
  let after := (← get).rest
  return .keyword (word ++ groupText (before.take (before.length - after.length)))

/-- The attributes of a group up to its closing brace. -/
def groupAttributes : Reader (List Attribute) :=
  repeatStep (fun items => do
    match ← peek with
    | some .rightBrace =>
      advance
      return .done items
    | some (.string _) => return .again (items ++ [← stringAttribute])
    | some (.keyword word) =>
      advance
      return .again (items ++ [← keywordAttribute word])
    | some other => unexpected "attribute" other
    | none => throw (.unexpectedEnd "expected '\x7d'")) []

theorem groupText_moved (xs : List Lexeme) : groupText (xs.map (·.moved k)) = groupText xs := by
  rw [groupText, List.map_map]
  rfl

theorem groupAttribute_run (word : String) {c c' : Cursor} {xs : List Lexeme}
    (hskip : skipGroup c = .ok ((), c')) (hxs : c.rest = xs ++ c'.rest) :
    groupAttribute word c = .ok (.keyword (word ++ groupText xs), c') := by
  have htake : c.rest.take (c.rest.length - c'.rest.length) = xs := by
    rw [hxs, List.length_append, Nat.add_sub_cancel, List.take_left]
  rw [← htake, groupAttribute, bind_run (show (get : Reader Cursor) c = .ok (c, c) from rfl)]
  dsimp only
  rw [bind_run hskip]
  rfl

theorem keeps_groupAttribute (word : String) : Keeps k B 0 (groupAttribute word) := by
  intro c a c' _ h
  obtain ⟨_, _, hget, hrun⟩ := bind_ok.mp h
  cases hget
  obtain ⟨_, c₁, hskip, -⟩ := bind_ok.mp hrun
  obtain ⟨xs, hxs, -, hbehind⟩ := keeps_skipGroup (k := k) (B := B) c () c₁ (Nat.zero_le _) hskip
  rw [groupAttribute_run word hskip hxs] at h
  cases h
  refine ⟨xs, hxs, Nat.zero_le _, fun zs hlength hzs line => ?_⟩
  obtain ⟨line', hskip'⟩ := hbehind zs hlength hzs line
  exact ⟨line', by rw [groupAttribute_run word hskip' rfl, groupText_moved]; rfl⟩

section

variable [Quiet B] [Closed k B]

theorem keeps_stringAttribute : Keeps k B 1 stringAttribute :=
  keeps_last keeps_string fun _ => keeps_accept_quiet rfl
    (keeps_last keeps_string.goes fun _ => keeps_pure _) (keeps_pure _)

theorem keeps_keywordAttribute (word : String) : Keeps k B 0 (keywordAttribute word) :=
  keeps_at?_bind (fun _ _ _ => nextToken_eq_iff rfl) (keeps_groupAttribute word).ahead <|
    keeps_accept_quiet rfl (keeps_last (keeps_next _).goes fun _ => keeps_pure _) (keeps_pure _)

theorem keeps_groupAttributes : Keeps k B 0 groupAttributes := by
  refine keeps_repeatStep fun items => Tracks.goes (n := 1) <|
    tracks_peek_taken (tracks_throw _) fun t => ?_
  split
  · exact keeps_last keeps_advance fun _ => keeps_pure _
  · exact (keeps_last keeps_stringAttribute fun _ => keeps_pure _).ahead
  · exact keeps_last keeps_advance fun _ => keeps_last (keeps_keywordAttribute _) fun _ =>
      keeps_pure _
  · exact tracks_unexpected _ _
  · exact tracks_throw _

theorem keeps_attributeGroup : Keeps k B 1 attributeGroup := by
  have hrest : ∀ id : Nat, Keeps k B 0 (do
      expect .equals
      expect .leftBrace
      return (id, ← groupAttributes)) := fun id =>
    Tracks.goes (n := 1) <| keeps_then (keeps_expect _) fun _ => keeps_last (keeps_expect _) fun _ =>
      keeps_last keeps_groupAttributes fun _ => keeps_pure _
  refine keeps_next_bind fun found => ?_
  split
  · exact keeps_last (keeps_pure _) hrest
  · exact keeps_last (tracks_unexpected _ _) hrest

end

/-! ## 6. Functions -/

theorem keeps_functionWords : Keeps k Inner 0 functionWords := by
  refine keeps_repeatStep fun linkage => tracks_peek_inner (keeps_pure _) fun t => ?_
  split
  · split
    · exact keeps_pure _
    · exact keeps_last keeps_advance.goes fun _ => keeps_last keeps_skipParens fun _ => keeps_pure _
  · exact keeps_pure _

theorem keeps_functionParams [Closed k B] : Keeps k B 0 functionParams := by
  refine keeps_repeatStep ?_
  rintro ⟨params, varArg⟩
  dsimp only
  have hrest : ∀ x : List (Ty × Option Symbol) × Bool, Keeps k B 1 (do
      if ← accept .comma then return Step.again (x.1, x.2)
      expect .rightParen
      return Step.done (x.1, x.2)) := fun x =>
    keeps_accept_taken (keeps_pure _) (keeps_last (keeps_expect _) fun _ => keeps_pure _)
  refine Tracks.goes (n := 1) (keeps_accept_taken (keeps_pure _) ?_)
  refine keeps_accept_taken (keeps_last (keeps_pure _) fun x => (hrest x).goes) ?_
  refine keeps_then keeps_type fun _ => keeps_then keeps_skipParamAttributes fun _ =>
    tracks_peek_taken ?_ fun t => ?_
  · exact keeps_then (keeps_pure _) fun _ => keeps_then (keeps_pure _) hrest
  · split
    · exact keeps_then (keeps_map keeps_localSymbol).ahead fun _ => keeps_then (keeps_pure _) hrest
    · exact keeps_then (keeps_map keeps_localSymbol).ahead fun _ => keeps_then (keeps_pure _) hrest
    · exact keeps_then (keeps_pure _) fun _ => keeps_then (keeps_pure _) hrest

theorem keeps_functionTailWord [Quiet B] [Closed k B] (tail : FunctionTail) (word : String) :
    Keeps k B 0 (functionTailWord tail word) := by
  unfold functionTailWord
  split
  · exact keeps_pure _
  · exact keeps_pure _
  · exact keeps_last keeps_string.goes fun _ => keeps_pure _
  · exact keeps_last keeps_string.goes fun _ => keeps_pure _
  · exact keeps_last keeps_string.goes fun _ => keeps_pure _
  · exact keeps_last keeps_number32.goes fun _ => keeps_pure _
  · exact keeps_last keeps_typedTerm.goes fun _ => keeps_pure _
  · exact keeps_last keeps_typedTerm.goes fun _ => keeps_pure _
  · exact keeps_last keeps_typedTerm.goes fun _ => keeps_pure _
  · exact keeps_last keeps_skipParens fun _ => keeps_pure _
  · exact keeps_last (keeps_keywordAttribute _) fun _ => keeps_pure _

theorem tailStep_entity {tail : FunctionTail} {xs : List Lexeme} (h : StartsEntity xs) (line : Nat) :
    tailStep tail ⟨xs, line⟩ = .ok (.done tail, ⟨xs, line⟩) := by
  cases xs with
  | nil => rfl
  | cons x xs =>
    obtain ⟨t, l⟩ := x
    obtain ⟨hstart, hword⟩ := h t rfl
    cases t with
    | keyword word =>
      rw [tailStep, bind_run (show peek _ = .ok (some (.keyword word), _) from rfl)]
      dsimp only
      rw [if_pos (show isEntityWord word = true from hstart)]
      rfl
    | metadataName name =>
      rw [tailStep, bind_run (show peek _ = .ok (some (.metadataName name), _) from rfl)]
      dsimp only
      rw [bind_run (peekSecond_run _), if_pos (hword.resolve_left (by simp))]
      rfl
    | localName | localId | globalName | globalId | metadataId => rfl
    | _ => cases hstart

theorem keeps_tailStep (tail : FunctionTail) : Keeps k Border 0 (tailStep tail) := by
  have hahead : KeepsAhead k Border 0 (tailStep tail) := by
    refine tracks_peek (fun _ ys zs hys h => ?_) (keeps_pure _) fun t => ?_
    · rw [h.next (List.ne_nil_of_length_pos hys)]
    · split
      · split
        · exact keeps_pure _
        · exact keeps_last keeps_advance.goes fun _ =>
            keeps_last (keeps_functionTailWord _ _) fun _ => keeps_pure _
      · exact keeps_last keeps_advance.goes fun _ => keeps_pure _
      · exact (keeps_last keeps_stringAttribute fun _ => keeps_pure _).goes.ahead
      · refine tracks_look peekSecond_run (v := fun xs => nextToken xs.tail) (fun _ => 0)
          (fun _ => Nat.zero_le _) (fun y ys zs hys _ h => ?_) fun second => ?_
        · exact if_congr (h.second (List.ne_nil_of_length_pos hys)) rfl rfl
        · split
          · exact keeps_pure _
          · exact (keeps_advance_then (keeps_last keeps_skipMetadata fun _ => keeps_pure _)).goes
      · exact keeps_pure _
  rintro ⟨_ | ⟨x, rest⟩, line⟩ a c' - hrun
  · cases hrun
    exact ⟨[], rfl, Nat.le_refl 0, fun zs _ h line => ⟨line, tailStep_entity (h.starts rfl) line⟩⟩
  · exact hahead _ a c' (Nat.succ_pos _) hrun

theorem keeps_functionTail : Keeps k Border 0 functionTail := by
  rw [functionTail_eq]
  exact keeps_repeatStep keeps_tailStep

theorem tracks_function (isDefinition : Bool) : Tracks k 0 Border 1 (FuncTree.moved k)
    (Reader.function isDefinition) (Reader.function isDefinition) := by
  refine tracks_then keeps_functionWords fun linkage => tracks_then keeps_type fun ret =>
    tracks_then keeps_globalSymbol fun name => tracks_last (keeps_expect _) fun _ =>
    tracks_last keeps_functionParams fun params => ?_
  cases isDefinition with
  | true =>
    -- The opening brace and the closing one stand behind the tail, so it sees the same two tokens.
    refine tracks_bind (j := 2) (C := Border) keeps_functionTail (fun tail => ?_)
      (fun y ys zs hy _ => ?_) (Nat.zero_le _)
    · exact tracks_bind (C := fun _ _ => True) (j := 1) (keeps_expect .leftBrace)
        (fun _ => tracks_last tracks_functionBody fun blocks => tracks_pure _)
        (fun _ _ _ _ _ => trivial) (Nat.le_refl 2)
    · match y with
      | x :: x' :: y => exact ⟨.inl rfl, fun _ => Iff.rfl⟩
  | false =>
    exact tracks_last keeps_functionTail fun tail =>
      tracks_last (tracks_pure (g := List.map (·.moved k)) []) fun _ => tracks_pure _

/-! ## 7. Types and globals -/

theorem keeps_namedType [Quiet B] [Closed k B] : Keeps k B 1 namedType :=
  keeps_then keeps_localSymbol fun _ => keeps_then (keeps_expect _) fun _ =>
    keeps_last (keeps_expectWord _) fun _ => keeps_accept_quiet (by decide) (keeps_pure _)
      (keeps_last keeps_type.goes fun _ => keeps_pure _)

theorem keeps_globalWords [Quiet B] [Closed k B] : Keeps k B 0 globalWords := by
  refine keeps_repeatStep ?_
  rintro ⟨linkage, marker⟩
  refine (keeps_next_bind fun found => ?_).goes
  split
  · exact keeps_pure _
  · exact keeps_pure _
  · split
    · exact keeps_pure _
    · split
      · exact keeps_pure _
      · exact keeps_last keeps_skipParens fun _ => keeps_pure _
  · exact tracks_unexpected _ _

/-- A global up to its type. -/
def openGlobal : Reader GlobalTree := do
  let name ← globalSymbol
  expect .equals
  let (linkage, marker, constant) ← globalWords
  let ty ← type
  return ⟨name, ty, linkage, marker, constant, none, none⟩

/-- A global behind its type: a value, if one starts there, and properties. -/
def globalRest (head : GlobalTree) : Reader GlobalTree := do
  let init ← if ← atTerm? then some <$> term else pure none
  return { head with initializer := init, align := ← globalProperties }

theorem globalVariable_eq : globalVariable = openGlobal >>= globalRest := by
  simp only [openGlobal, bind_assoc, pure_bind]
  rfl

theorem keeps_openGlobal [Quiet B] [Closed k B] : Keeps k B 1 openGlobal :=
  keeps_then keeps_globalSymbol fun _ => keeps_then (keeps_expect _) fun _ =>
    keeps_then keeps_globalWords fun _ => keeps_last keeps_type fun _ => keeps_pure _

theorem keeps_globalProperties [Quiet B] [Closed k B] : Keeps k B 0 globalProperties := by
  refine keeps_repeatStep fun align => keeps_accept_quiet rfl ?_ (keeps_pure _)
  refine (keeps_next_bind fun found => ?_).goes
  split
  · exact keeps_last keeps_number32.goes fun _ => keeps_pure _
  · exact keeps_last keeps_string.goes fun _ => keeps_pure _
  · exact keeps_last keeps_string.goes fun _ => keeps_pure _
  · exact keeps_last keeps_skipParens fun _ => keeps_pure _
  · exact keeps_last keeps_skipMetadata.goes fun _ => keeps_pure _
  · exact tracks_unexpected _ _

/-- What `atTerm?` sees. -/
def startsTermAt (xs : List Lexeme) : Bool :=
  match nextToken xs with
  | some (.integer _) | some (.decimal _) | some (.hexBits _) | some (.bytes _)
  | some .leftBracket | some .leftBrace | some .less
  | some (.localName _) | some (.localId _) => true
  | some (.globalName _) | some (.globalId _) => nextToken xs.tail ≠ some .equals
  | some (.keyword word) => isValueWord word
  | _ => false

theorem atTerm?_run (c : Cursor) : atTerm? c = .ok (startsTermAt c.rest, c) := by
  rw [atTerm?, bind_run (show peek c = .ok (nextToken c.rest, c) from rfl), startsTermAt]
  cases nextToken c.rest with
  | none => rfl
  | some t =>
    cases t with
    | globalName | globalId =>
      dsimp only
      rw [bind_run (peekSecond_run c)]
      rfl
    | _ => rfl

theorem not_isValueWord {word : String} (h : isEntityWord word = true) : isValueWord word = false := by
  simp only [isEntityWord, List.contains_eq_mem, decide_eq_true_eq, List.mem_cons,
    List.not_mem_nil, or_false] at h
  rcases h with rfl | rfl | rfl | rfl | rfl | rfl <;> decide

theorem startsTermAt_eq {y ys zs : List Lexeme} (h : Border ys zs)
    (hlocal : y ++ ys = [] → ∀ t ∈ nextToken zs, t.isLocal = false) :
    startsTermAt (y.map (·.moved k) ++ zs) = startsTermAt (y ++ ys) := by
  by_cases hys : y ++ ys = []
  · obtain ⟨rfl, rfl⟩ := List.append_eq_nil_iff.mp hys
    change startsTermAt zs = false
    rw [startsTermAt]
    cases hzs : nextToken zs with
    | none => rfl
    | some t =>
      obtain ⟨hstart, hword⟩ := h.starts rfl t hzs
      have hplain := hlocal rfl t hzs
      cases t with
      | keyword word => exact not_isValueWord hstart
      | globalName | globalId => simp [hword.resolve_left (by simp)]
      | localName | localId => cases hplain
      | metadataName | metadataId => rfl
      | _ => cases hstart
  · have hnext : nextToken (y.map (·.moved k) ++ zs) = nextToken (y ++ ys) := by
      cases y with
      | nil => exact h.next hys
      | cons x y => rfl
    rw [startsTermAt, startsTermAt, hnext]
    have hsecond := h.second (k := k) hys
    cases nextToken (y ++ ys) with
    | none => rfl
    | some t => cases t with
      | globalName | globalId => simp only [ne_eq, hsecond]
      | _ => rfl

theorem tracks_globalRest [Quiet B] [Closed k B] (head : GlobalTree)
    (hsee : ∀ y ys zs, m ≤ (y ++ ys).length → B ys zs →
      startsTermAt (y.map (·.moved k) ++ zs) = startsTermAt (y ++ ys)) :
    Tracks k m B 0 id (globalRest head) (globalRest head) := by
  refine tracks_look atTerm?_run (fun _ => 0) (fun _ => Nat.zero_le _)
    (fun y ys zs hm _ h => by rw [hsee y ys zs hm h]) fun here => ?_
  have hrest : ∀ init : Option Term, Keeps k B 0 (do
      return { head with initializer := init, align := ← globalProperties }) := fun init =>
    keeps_last keeps_globalProperties fun _ => keeps_pure _
  split
  · exact keeps_last (keeps_map keeps_term.goes) hrest
  · exact keeps_last (keeps_pure _) hrest

theorem keepsAhead_globalRest (head : GlobalTree) : KeepsAhead k Border 0 (globalRest head) :=
  tracks_globalRest head fun _ _ _ hm h => startsTermAt_eq h fun hnil => by
    rw [hnil] at hm
    cases hm

theorem keeps_globalRest (head : GlobalTree) : Keeps k NoLocal 0 (globalRest head) :=
  tracks_globalRest head fun _ _ _ _ h => startsTermAt_eq h.1 fun hnil =>
    h.2 (List.append_eq_nil_iff.mp hnil).2

/-- A global is read alike in front of everything but a local name. -/
theorem keeps_globalVariable : Keeps k NoLocal 1 globalVariable := by
  rw [globalVariable_eq]
  exact keeps_last keeps_openGlobal keeps_globalRest

end Reader

end QirProfile.Assembly
