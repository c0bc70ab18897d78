import QirProfile.Proofs.Assembly.FollowingUnits

/-!
# Texts behind each other

A program text is a list of entities, and each adds a tree to what stands before it. Most entities end
without a mark of their own: where they end is decided by the start of the next one. All of them end in
front of any entity, but for a global with nothing behind its type, which takes the name of a type that
follows it for its value.
-/

namespace QirProfile.Assembly

variable {t : Token} {xs : List Lexeme} {tree : ProgramTree} {line : Nat}
  {global : Reader GlobalTree} {c' : Cursor}

/-! ## 1. Trees behind each other -/

namespace ProgramTree

/-- What the second tree adds to the first one: units stand behind those of the first, and what is given
    once is the last one given. -/
def followedBy (a b : ProgramTree) : ProgramTree where
  sourceFile := b.sourceFile.or a.sourceFile
  dataLayout := b.dataLayout.or a.dataLayout
  targetTriple := b.targetTriple.or a.targetTriple
  namedTypes := a.namedTypes ++ b.namedTypes
  globals := a.globals ++ b.globals
  functions := a.functions ++ b.functions
  groups := a.groups ++ b.groups

/-- The tree, so many lines further down. -/
def moved (k : Nat) (tree : ProgramTree) : ProgramTree :=
  { tree with functions := tree.functions.map (·.moved k) }

variable {k : Nat} {a b c : ProgramTree}

theorem followedBy_assoc : (a.followedBy b).followedBy c = a.followedBy (b.followedBy c) := by
  simp [followedBy, Option.or_assoc]

@[simp] theorem followedBy_empty : a.followedBy {} = a := by simp [followedBy]

@[simp] theorem empty_followedBy : ({} : ProgramTree).followedBy a = a := by simp [followedBy]

theorem moved_followedBy : (a.followedBy b).moved k = (a.moved k).followedBy (b.moved k) := by
  simp [moved, followedBy]

end ProgramTree

@[simp] theorem InstrTree.moved_zero (i : InstrTree) : i.moved 0 = i := rfl

@[simp] theorem BlockTree.moved_zero (b : BlockTree) : b.moved 0 = b := by simp [BlockTree.moved]

@[simp] theorem FuncTree.moved_zero (t : FuncTree) : t.moved 0 = t := by simp [FuncTree.moved]

@[simp] theorem ProgramTree.moved_zero (tree : ProgramTree) : tree.moved 0 = tree := by
  simp [ProgramTree.moved]

namespace Reader

open Follow

/-! ## 2. Entity by entity -/

/-- What an entity that starts with the token adds, if globals are read like this. -/
def entity (global : Reader GlobalTree) : Token → Reader ProgramTree
  | .keyword word => wordEntity {} word
  | .localName _ | .localId _ => return { namedTypes := [← namedType] }
  | .globalName _ | .globalId _ => return { globals := [← global] }
  | .metadataName _ | .metadataId _ => do
    advance
    expect .equals
    skipMetadata
    return {}
  | other => do
    advance
    unexpected "top-level entity" other

/-- The step of the loop over entities, if globals are read like this. -/
def entityStep (global : Reader GlobalTree) (tree : ProgramTree) :
    Reader (Step ProgramTree ProgramTree) := do
  match ← peek with
  | none => return .done tree
  | some t => return .again (tree.followedBy (← entity global t))

theorem isEntityWord_iff {word : String} : isEntityWord word = true ↔ word = "define" ∨
    word = "declare" ∨ word = "attributes" ∨ word = "target" ∨ word = "source_filename" ∨
      word = "module" := by
  simp [isEntityWord]

theorem map_unexpected {α β : Type} (φ : α → β) (expected : String) (found : Token) :
    φ <$> (unexpected expected found : Reader α) = unexpected expected found := rfl

theorem targetLine_eq (tree : ProgramTree) : targetLine tree = tree.followedBy <$> targetLine {} := by
  simp only [targetLine, map_bind]
  refine bind_congr fun which => bind_congr fun _ => bind_congr fun value => ?_
  split
  · simp [ProgramTree.followedBy]
  · split
    · simp [ProgramTree.followedBy]
    · exact (map_unexpected _ _ _).symm

theorem wordEntity_eq (tree : ProgramTree) (word : String) :
    wordEntity tree word = tree.followedBy <$> wordEntity {} word := by
  by_cases h : isEntityWord word = true
  · have hmore := targetLine_eq tree
    rcases isEntityWord_iff.mp h with rfl | rfl | rfl | rfl | rfl | rfl <;>
      simp [wordEntity, h, ProgramTree.followedBy, hmore]
  · have hrefused : ∀ tree, wordEntity tree word =
        (unexpected "top-level entity" (.keyword word) : Reader ProgramTree) := fun tree => by
      unfold wordEntity
      rw [if_pos (by simpa using h)]
      rfl
    rw [hrefused, hrefused, map_unexpected]

theorem programStep_eq (tree : ProgramTree) : programStep tree = entityStep globalVariable tree := by
  refine bind_congr fun t => ?_
  cases t with
  | none => rfl
  | some t =>
    cases t with
    | keyword word =>
      dsimp only
      rw [wordEntity_eq, entity, bind_map_left]
    | localName | localId | globalName | globalId | metadataName | metadataId =>
      simp [entity, ProgramTree.followedBy]
    | _ =>
      simp only [entity, bind_assoc]
      rfl

theorem program_eq : program = repeatStep (entityStep globalVariable) {} :=
  congrArg (fun step => repeatStep step ({} : ProgramTree)) (funext programStep_eq)

theorem steps_entityStep (n : Nat) (tree : ProgramTree) :
    Steps n (entityStep globalVariable tree) :=
  programStep_eq tree ▸ (steps_programStep False.elim).free

/-! ## 3. Entities in front of each other -/

section

variable {α γ : Type} {k m n : Nat} {B : Follow} {g : α → γ} {r : Reader α} {r' : Reader γ}
  {global : Reader GlobalTree}

/-- The reader, where something is left. -/
def ahead (r : Reader α) : Reader α := fun c => if c.rest = [] then .error (.unexpectedEnd "") else r c

theorem tracks_ahead (h : Tracks k 1 B n g r r') : Tracks k 0 B n g (ahead r) r' := by
  intro c a c' _ hrun
  by_cases hrest : c.rest = []
  · rw [ahead, if_pos hrest] at hrun
    cases hrun
  · rw [ahead, if_neg hrest] at hrun
    exact h c a c' (List.length_pos_iff.mpr hrest) hrun

/-- A global with something behind its type. -/
def shutGlobal : Reader GlobalTree := openGlobal >>= fun head => ahead (globalRest head)

/-- The global here has nothing behind its type. -/
def GlobalEnds (c : Cursor) : Prop := ∃ head line, openGlobal c = .ok (head, ⟨[], line⟩)

theorem shutGlobal_run {c : Cursor} (h : ¬ GlobalEnds c) : shutGlobal c = globalVariable c := by
  rw [globalVariable_eq]
  change (openGlobal c >>= _) = (openGlobal c >>= _)
  cases ho : openGlobal c with
  | error e => rfl
  | ok x =>
    obtain ⟨head, c'⟩ := x
    refine if_neg fun hrest => h ⟨head, c'.line, ?_⟩
    rw [ho, ← hrest]

theorem tracks_shutGlobal : Tracks k 0 Border 1 id shutGlobal globalVariable := by
  rw [globalVariable_eq]
  exact tracks_last keeps_openGlobal fun head => tracks_ahead (keepsAhead_globalRest head)

theorem tracks_targetLine [Closed k B] :
    Tracks k 0 B 1 (ProgramTree.moved k) (targetLine {}) (targetLine {}) := by
  refine tracks_last (keeps_next _) fun which => tracks_last (keeps_expect _).goes fun _ =>
    tracks_last keeps_string.goes fun value => ?_
  simp only [id_eq]
  split
  · exact tracks_pure (g := ProgramTree.moved k) _
  · split
    · exact tracks_pure (g := ProgramTree.moved k) _
    · exact tracks_unexpected _ _

theorem tracks_wordEntity [Closed k B] (hB : ∀ ys zs, B ys zs → Border ys zs) (word : String) :
    Tracks k 1 B 1 (ProgramTree.moved k) (wordEntity {} word) (wordEntity {} word) := by
  have : Quiet B := ⟨fun ys zs h => (hB ys zs h).1⟩
  have hfunction : ∀ isDefinition, Tracks k 0 B 0 (FuncTree.moved k)
      (Reader.function isDefinition) (Reader.function isDefinition) := fun isDefinition =>
    (tracks_function isDefinition).mono (Nat.le_refl 0) (Nat.zero_le 1) hB
  by_cases h : isEntityWord word = true
  · unfold wordEntity
    rw [if_neg (by simpa using h)]
    refine tracks_last keeps_advance fun _ => ?_
    split
    · exact tracks_last (keeps_expect _).goes fun _ =>
        tracks_last keeps_string.goes fun _ => tracks_pure (g := ProgramTree.moved k) _
    · exact tracks_targetLine.goes
    · exact tracks_last (hfunction true) fun t =>
        tracks_pure (g := ProgramTree.moved k) { functions := [] ++ [t] }
    · exact tracks_last (hfunction false) fun t =>
        tracks_pure (g := ProgramTree.moved k) { functions := [] ++ [t] }
    · exact tracks_last keeps_attributeGroup.goes fun _ =>
        tracks_pure (g := ProgramTree.moved k) _
    · exact tracks_last (keeps_expectWord _).goes fun _ =>
        tracks_last keeps_string.goes fun _ => tracks_pure (g := ProgramTree.moved k) _
  · unfold wordEntity
    rw [if_pos (by simpa using h)]
    exact tracks_unexpected _ _

theorem tracks_entity [Closed k B] (hB : ∀ ys zs, B ys zs → Border ys zs)
    (hg : Tracks k 0 B 1 id global globalVariable) (t : Token) :
    Tracks k 1 B 1 (ProgramTree.moved k) (entity global t) (entity globalVariable t) := by
  have : Quiet B := ⟨fun ys zs h => (hB ys zs h).1⟩
  have hmetadata : Tracks k 1 B 1 (ProgramTree.moved k)
      (do advance; expect .equals; skipMetadata; return {})
      (do advance; expect .equals; skipMetadata; return {}) :=
    tracks_last keeps_advance fun _ => tracks_last (keeps_expect _).goes fun _ =>
      tracks_last keeps_skipMetadata.goes fun _ => tracks_pure (g := ProgramTree.moved k) {}
  cases t with
  | keyword word => exact tracks_wordEntity hB word
  | localName | localId =>
    exact tracks_last keeps_namedType.ahead fun _ => tracks_pure (g := ProgramTree.moved k) _
  | globalName | globalId =>
    exact tracks_last hg.ahead fun _ => tracks_pure (g := ProgramTree.moved k) _
  | metadataName | metadataId => exact hmetadata
  | _ => exact tracks_last keeps_advance fun _ => tracks_unexpected _ _

end

/-! ## 4. Entities one after the other -/

section

variable {k : Nat} {B : Follow} {global : Reader GlobalTree} {tree tree' : ProgramTree} {c c' : Cursor}

theorem entityStep_again : entityStep global tree c = .ok (.again tree', c') ↔
    ∃ t, nextToken c.rest = some t ∧ ∃ e, entity global t c = .ok (e, c') ∧
      tree' = tree.followedBy e := by
  rw [entityStep, bind_run (show peek c = .ok (nextToken c.rest, c) from rfl)]
  cases nextToken c.rest with
  | none => exact ⟨nofun, nofun⟩
  | some t =>
    constructor
    · intro h
      obtain ⟨e, c₁, he, h⟩ := bind_ok.mp h
      cases h
      exact ⟨t, rfl, e, he, rfl⟩
    · rintro ⟨_, ⟨⟩, e, he, rfl⟩
      exact bind_ok.mpr ⟨e, c', he, rfl⟩

theorem entityStep_done (h : entityStep global tree c = .ok (.done tree', c')) :
    c.rest = [] ∧ tree' = tree := by
  obtain ⟨_ | ⟨x, rest⟩, line⟩ := c
  · cases h
    exact ⟨rfl, rfl⟩
  · rw [entityStep, bind_run (show peek _ = .ok (some x.token, _) from rfl)] at h
    obtain ⟨e, c₁, -, h⟩ := bind_ok.mp h
    cases h

/-- The reader takes the next token and nothing else. -/
def TakesOne {α : Type} (r : Reader α) : Prop := ∀ c a c', r c = .ok (a, c') → c'.rest = c.rest.tail

theorem takesOne_advance : TakesOne advance := by
  rintro ⟨_ | ⟨x, rest⟩, line⟩ a c' h <;> cases h <;> rfl

theorem takesOne_localSymbol : TakesOne localSymbol := by
  rintro ⟨_ | ⟨⟨t, l⟩, rest⟩, line⟩ a c' h
  · cases h
  · cases t <;> cases h <;> rfl

theorem takesOne_globalSymbol : TakesOne globalSymbol := by
  rintro ⟨_ | ⟨⟨t, l⟩, rest⟩, line⟩ a c' h
  · cases h
  · cases t <;> cases h <;> rfl

theorem second_of_expect {α β : Type} {r : Reader α} {f : α → Unit → Reader β} {b : β}
    (hr : TakesOne r) (h : (r >>= fun a => expect .equals >>= f a) c = .ok (b, c')) :
    nextToken c.rest.tail = some .equals := by
  obtain ⟨a, c₁, ha, h⟩ := bind_ok.mp h
  obtain ⟨_, c₂, he, -⟩ := bind_ok.mp h
  rw [← hr c a c₁ ha]
  obtain ⟨_ | ⟨⟨t, l⟩, rest⟩, line⟩ := c₁
  · cases he
  · by_cases ht : t = .equals
    · rw [ht]
      rfl
    · change (if t ≠ .equals then _ else _ : Reader Unit) _ = _ at he
      rw [if_pos ht] at he
      cases he

theorem startsEntity_of_entity {e : ProgramTree} (ht : nextToken c.rest = some t)
    (h : entity globalVariable t c = .ok (e, c')) : StartsEntity c.rest := by
  intro t' ht'
  cases ht.symm.trans ht'
  cases t with
  | keyword word =>
    refine ⟨?_, .inl ⟨word, rfl⟩⟩
    by_contra hword
    change ¬ isEntityWord word = true at hword
    change wordEntity {} word c = _ at h
    unfold wordEntity at h
    rw [if_pos (by simpa using hword)] at h
    cases h
  | localName | localId =>
    obtain ⟨body, c₁, hbody, -⟩ := bind_ok.mp h
    exact ⟨rfl, .inr (second_of_expect takesOne_localSymbol hbody)⟩
  | globalName | globalId =>
    obtain ⟨g, c₁, hglobal, -⟩ := bind_ok.mp h
    exact ⟨rfl, .inr (second_of_expect takesOne_globalSymbol hglobal)⟩
  | metadataName | metadataId => exact ⟨rfl, .inr (second_of_expect takesOne_advance h)⟩
  | _ =>
    obtain ⟨_, c₁, -, h⟩ := bind_ok.mp h
    cases h

theorem walks_entities [Closed k B] (hB : ∀ ys zs, B ys zs → Border ys zs)
    (hg : Tracks k 0 B 1 id global globalVariable) (h : Walks (entityStep global) tree c tree' c') :
    ∃ x e, c.rest = x ++ c'.rest ∧ tree' = tree.followedBy e ∧
      ∀ zs, c'.rest.length ≤ zs.length → B c'.rest zs → ∀ base line, ∃ line',
        Walks (entityStep globalVariable) base ⟨x.map (·.moved k) ++ zs, line⟩
          (base.followedBy (e.moved k)) ⟨zs, line'⟩ := by
  induction h with
  | here =>
    exact ⟨[], {}, rfl, ProgramTree.followedBy_empty.symm,
      fun zs _ _ base line => ⟨line, by simpa [ProgramTree.moved] using Walks.here⟩⟩
  | @again tree tree₁ tree' c c₁ c' hs _ ih =>
    obtain ⟨t, ht, e₁, he₁, rfl⟩ := entityStep_again.mp hs
    obtain ⟨x₂, e₂, hx₂, rfl, hbehind⟩ := ih
    have hlength : 1 ≤ c.rest.length := by
      cases hc : c.rest with
      | nil =>
        rw [hc] at ht
        cases ht
      | cons => exact Nat.succ_pos _
    obtain ⟨x₁, hx₁, hn, htracks⟩ := tracks_entity hB hg t c e₁ c₁ hlength he₁
    refine ⟨x₁ ++ x₂, e₁.followedBy e₂, by rw [hx₁, hx₂, List.append_assoc],
      ProgramTree.followedBy_assoc, fun zs hzs hfollow base line => ?_⟩
    obtain ⟨line₁, hrun⟩ := htracks (x₂.map (·.moved k) ++ zs) (by
      rw [hx₂, List.length_append, List.length_append, List.length_map]
      omega) (hx₂ ▸ Closed.append x₂ c'.rest zs hfollow) line
    obtain ⟨line₂, hw⟩ := hbehind zs hzs hfollow (base.followedBy (e₁.moved k)) line₁
    refine ⟨line₂, ?_⟩
    rw [List.map_append, List.append_assoc, ProgramTree.moved_followedBy,
      ← ProgramTree.followedBy_assoc]
    refine .again (entityStep_again.mpr ⟨t, ?_, _, hrun, rfl⟩) hw
    rw [← ht, hx₁]
    exact nextToken_append (List.ne_nil_of_length_pos hn)

theorem walks_program (h : program ⟨xs, 1⟩ = .ok (tree, c')) :
    ∃ line, Walks (entityStep globalVariable) {} ⟨xs, 1⟩ tree ⟨[], line⟩ := by
  rw [program_eq] at h
  obtain ⟨tree₁, c₁, hw, hdone⟩ := walks_of_repeatFuel h
  obtain ⟨hrest, rfl⟩ := entityStep_done hdone
  exact ⟨c₁.line, hrest ▸ hw⟩

theorem program_of_walks (h : Walks (entityStep globalVariable) {} ⟨xs, 1⟩ tree ⟨[], line⟩) :
    program ⟨xs, 1⟩ = .ok (tree, ⟨[], line⟩) := by
  rw [program_eq]
  exact (repeatStep_ok_iff steps_entityStep).mpr ⟨tree, ⟨[], line⟩, h, rfl⟩

theorem Walks.startsEntity
    (h : Walks (entityStep globalVariable) tree ⟨xs, line⟩ tree' c') (hend : c'.rest = []) :
    StartsEntity xs := by
  cases h with
  | here =>
    subst hend
    nofun
  | again hs =>
    obtain ⟨t, ht, e, he, -⟩ := entityStep_again.mp hs
    exact startsEntity_of_entity ht he

theorem entity_shutGlobal {c : Cursor} (h : ¬ GlobalEnds c) (t : Token) :
    entity shutGlobal t c = entity globalVariable t c := by
  cases t with
  | globalName | globalId =>
    change (shutGlobal c >>= _) = (globalVariable c >>= _)
    rw [shutGlobal_run h]
  | _ => rfl

theorem Walks.shut (h : Walks (entityStep globalVariable) tree c tree' c')
    (hends : ∀ tree₁ c₁, Walks (entityStep globalVariable) tree c tree₁ c₁ → ¬ GlobalEnds c₁) :
    Walks (entityStep shutGlobal) tree c tree' c' := by
  induction h with
  | here => exact .here
  | @again tree tree₁ tree' c c₁ c' hs _ ih =>
    obtain ⟨t, ht, e, he, htree⟩ := entityStep_again.mp hs
    refine .again (entityStep_again.mpr ⟨t, ht, e, ?_, htree⟩) (ih fun tree₂ c₂ hw => ?_)
    · rw [entity_shutGlobal (hends _ _ .here), he]
    · exact hends tree₂ c₂ (.again hs hw)

end

end Reader

/-! ## 5. Texts -/

open Reader in
/-- The text ends with a global that has nothing behind its type. -/
def EndsOpen (s : String) : Prop := ∃ xs tree c, tokens s = .ok xs ∧
  Walks (entityStep globalVariable) {} ⟨xs, 1⟩ tree c ∧ GlobalEnds c

/-- The text starts with a local symbol. -/
def StartsLocal (s : String) : Prop := ∃ xs t, tokens s = .ok xs ∧ nextToken xs = some t ∧
  t.isLocal = true

section

variable {a b : String} {xs ys : List Lexeme} {tree₁ tree₂ : ProgramTree} {k : Nat}

open Reader Follow

@[simp] theorem nextToken_moved : nextToken (xs.map (·.moved k)) = nextToken xs := by
  cases xs <;> rfl

theorem StartsEntity.moved (h : StartsEntity xs) : StartsEntity (xs.map (·.moved k)) := by
  rw [StartsEntity, nextToken_moved, ← List.map_tail, nextToken_moved]
  exact h

theorem exists_tree {s : String} (h : (readTree s).isOk = true) : ∃ tree, readTree s = .ok tree := by
  cases hs : readTree s with
  | error e =>
    rw [hs] at h
    cases h
  | ok tree => exact ⟨tree, rfl⟩

theorem readTree_ok {s : String} : readTree s = .ok tree ↔
    ∃ xs line, tokens s = .ok xs ∧
      Walks (entityStep globalVariable) {} ⟨xs, 1⟩ tree ⟨[], line⟩ := by
  constructor
  · intro h
    obtain ⟨xs, hxs, h⟩ := except_bind_ok.mp h
    obtain ⟨⟨tree', c⟩, hrun, h⟩ := except_bind_ok.mp h
    cases h
    obtain ⟨line, hw⟩ := walks_program hrun
    exact ⟨xs, line, hxs, hw⟩
  · rintro ⟨xs, line, hxs, hw⟩
    exact except_bind_ok.mpr ⟨xs, hxs, except_bind_ok.mpr ⟨_, program_of_walks hw, rfl⟩⟩

theorem readTree_joined {B : Follow} [Closed 0 B] {line₁ line₂ : Nat}
    (hB : ∀ ys zs, B ys zs → Border ys zs) (hg : Tracks 0 0 B 1 id global globalVariable)
    (hxs : tokens a = .ok xs) (hys : tokens b = .ok ys)
    (hw₁ : Walks (entityStep global) {} ⟨xs, 1⟩ tree₁ ⟨[], line₁⟩)
    (hw₂ : Walks (entityStep globalVariable) {} ⟨ys, 1⟩ tree₂ ⟨[], line₂⟩)
    (hfollow : ∀ k, B [] (ys.map (·.moved k))) : readTree (a ++ "\n" ++ b) =
      .ok (tree₁.followedBy (tree₂.moved (a.toList.count '\n' + 1))) := by
  obtain ⟨x, e₁, hx, he₁, hfirst⟩ := walks_entities hB hg hw₁
  obtain ⟨y, e₂, hy, he₂, hsecond⟩ := walks_entities (k := a.toList.count '\n' + 1)
    (B := NoLocal) (fun _ _ h => h.1) keeps_globalVariable hw₂
  have hx' : xs = x := by simpa using hx
  have hy' : ys = y := by simpa using hy
  rw [ProgramTree.empty_followedBy] at he₁ he₂
  subst hx' hy' he₁ he₂
  obtain ⟨line, hw⟩ := hfirst (ys.map (·.moved (a.toList.count '\n' + 1))) (Nat.zero_le _)
    (hfollow _) {} 1
  obtain ⟨line', hw'⟩ := hsecond [] (Nat.le_refl 0) ⟨⟨.inl rfl, fun h => absurd rfl h⟩, nofun⟩ tree₁ line
  refine readTree_ok.mpr ⟨_, line', tokens_lines hxs hys, ?_⟩
  simpa using hw.trans (by simpa using hw')

theorem globalRest_local (head : GlobalTree) (ht : t.isLocal = true) (l l' line : Nat)
    (rest : List Lexeme) : ∃ g, globalRest head ⟨⟨t, l⟩ :: ⟨.equals, l'⟩ :: rest, line⟩ =
      .ok (g, ⟨⟨.equals, l'⟩ :: rest, l⟩) := by
  cases t with
  | localName name => exact ⟨_, rfl⟩
  | localId n => exact ⟨_, rfl⟩
  | _ => cases ht

theorem entity_of_openGlobal {c : Cursor} {head : GlobalTree} (h : openGlobal c = .ok (head, c')) :
    ∃ t, nextToken c.rest = some t ∧
      entity globalVariable t = (do return { globals := [← globalVariable] }) := by
  obtain ⟨_ | ⟨⟨t, l⟩, rest⟩, line⟩ := c
  · cases h
  · cases t <;> first
      | exact ⟨_, rfl, rfl⟩
      | cases h

theorem walks_openGlobal {c : Cursor}
    (hw : Walks (entityStep globalVariable) {} ⟨xs, line⟩ tree c) (hends : GlobalEnds c)
    (ht : t.isLocal = true) (l l' : Nat) (rest : List Lexeme) : ∃ tree',
      Walks (entityStep globalVariable) {} ⟨xs ++ ⟨t, l⟩ :: ⟨.equals, l'⟩ :: rest, line⟩ tree'
        ⟨⟨.equals, l'⟩ :: rest, l⟩ := by
  obtain ⟨head, _, hhead⟩ := hends
  obtain ⟨x, e, hx, -, hfirst⟩ := walks_entities (k := 0) (B := NoLocal) (fun _ _ h => h.1)
    keeps_globalVariable hw
  obtain ⟨y, hy, hn, hopen⟩ := keeps_openGlobal (k := 0) (B := Border) c head _ (Nat.zero_le _) hhead
  obtain ⟨t₀, ht₀, hentity⟩ := entity_of_openGlobal hhead
  rw [List.append_nil] at hy
  have hmoved : ∀ ys : List Lexeme, ys.map (·.moved 0) = ys := fun ys => by simp
  have hborder : Border [] (⟨t, l⟩ :: ⟨.equals, l'⟩ :: rest) := by
    refine ⟨.inr ⟨rfl, fun t' ht' => ?_⟩, fun h => absurd rfl h⟩
    cases ht'
    refine ⟨?_, .inr rfl⟩
    cases t <;> first
      | rfl
      | cases ht
  have hrest : c.rest ≠ [] := by
    rw [hy]
    exact List.ne_nil_of_length_pos hn
  have hbehind := Closed.append (k := 0) c.rest _ _ hborder
  rw [hmoved, List.append_nil] at hbehind
  obtain ⟨line₁, hwalks⟩ := hfirst _ (by simp) ⟨hbehind, fun h => absurd h hrest⟩ {} line
  obtain ⟨line₂, hopen'⟩ := hopen _ (Nat.zero_le _) hborder line₁
  obtain ⟨g, hg⟩ := globalRest_local head ht l l' line₂ rest
  rw [hmoved, ← List.append_assoc, ← hx] at hwalks
  rw [hmoved, ← hy] at hopen'
  refine ⟨_, hwalks.trans (.again (entityStep_again.mpr ⟨t₀, ?_, { globals := [g] }, ?_, rfl⟩) .here)⟩
  · rw [← ht₀]
    cases hc : c.rest with
    | nil => exact absurd hc hrest
    | cons => rfl
  · rw [hentity]
    refine Reader.bind_ok.mpr ⟨g, _, ?_, rfl⟩
    rw [globalVariable_eq, bind_run hopen']
    exact hg

/-- Two texts behind each other are read as the one tree followed by the other, unless a global ends
    open in front of a local name: then they are refused. -/
theorem readTree_lines (ha : readTree a = .ok tree₁) (hb : readTree b = .ok tree₂) :
    (¬ (EndsOpen a ∧ StartsLocal b) → readTree (a ++ "\n" ++ b) =
      .ok (tree₁.followedBy (tree₂.moved (a.toList.count '\n' + 1)))) ∧
    (EndsOpen a ∧ StartsLocal b → ∃ line, readTree (a ++ "\n" ++ b) =
      .error (.unexpectedToken line "top-level entity" "=")) := by
  obtain ⟨xs, line₁, hxs, hw₁⟩ := readTree_ok.mp ha
  obtain ⟨ys, line₂, hys, hw₂⟩ := readTree_ok.mp hb
  have hstarts := hw₂.startsEntity rfl
  have hborder : ∀ k, Border [] (ys.map (·.moved k)) := fun k =>
    ⟨.inr ⟨rfl, hstarts.moved⟩, fun h => absurd rfl h⟩
  constructor
  · intro h
    by_cases hlocal : StartsLocal b
    · have hends : ¬ EndsOpen a := fun hends => h ⟨hends, hlocal⟩
      exact readTree_joined (fun _ _ => id) tracks_shutGlobal hxs hys
        (hw₁.shut fun tree c hw hc => hends ⟨xs, tree, c, hxs, hw, hc⟩) hw₂ hborder
    · refine readTree_joined (B := NoLocal) (fun _ _ h => h.1) keeps_globalVariable hxs hys hw₁ hw₂
        fun k => ⟨hborder k, fun _ t ht => ?_⟩
      rw [nextToken_moved] at ht
      exact Bool.eq_false_iff.mpr fun hlocal' => hlocal ⟨ys, t, hys, ht, hlocal'⟩
  · rintro ⟨⟨xs', tree, c, hxs', hw, hends⟩, ys', t, hys', ht, hlocal⟩
    cases hxs.symm.trans hxs'
    cases hys.symm.trans hys'
    obtain ⟨hstart, hword⟩ := hstarts t ht
    have hequals : nextToken ys.tail = some .equals :=
      hword.resolve_left fun ⟨word, hword⟩ => by
        rw [hword] at hlocal
        cases hlocal
    match ys, hys, ht, hequals with
    | ⟨_, l⟩ :: ⟨_, l'⟩ :: rest, hys, rfl, rfl =>
      let k := a.toList.count '\n' + 1
      obtain ⟨tree', hwalks⟩ := walks_openGlobal hw hends hlocal (l + k) (l' + k)
        (rest.map (·.moved k))
      refine ⟨l' + k, except_bind_error.mpr (.inr ⟨_, tokens_lines hxs hys,
        except_bind_error.mpr (.inl ?_)⟩)⟩
      change program _ = _
      rw [program_eq]
      exact hwalks.repeatStep_error steps_entityStep rfl

end

/-- A global that ends with its type. -/
def openText : String := "@x = external global i64"

/-- A function that is declared. -/
def declareText : String := "declare void @f()"

/-- A type. -/
def typeText : String := "%T = type opaque"

theorem readTree_openText : ∃ tree₁ tree₂, readTree openText = .ok tree₁ ∧
    readTree declareText = .ok tree₂ ∧
    readTree (openText ++ "\n" ++ declareText) = .ok (tree₁.followedBy (tree₂.moved 1)) ∧
    EndsOpen openText ∧ StartsLocal typeText := by
  have hopen : (readTree openText).isOk = true := by decide +kernel
  have hdeclare : (readTree declareText).isOk = true := by decide +kernel
  have htype : (readTree typeText).isOk = true := by decide +kernel
  have hkeyword : (tokens declareText).toOption.map nextToken = some (some (.keyword "declare")) := by
    decide +kernel
  have hrefused : (readTree (openText ++ "\n" ++ typeText)).isOk = false := by decide +kernel
  obtain ⟨tree₁, h₁⟩ := exists_tree hopen
  obtain ⟨tree₂, h₂⟩ := exists_tree hdeclare
  obtain ⟨tree₃, h₃⟩ := exists_tree htype
  refine ⟨tree₁, tree₂, h₁, h₂, (readTree_lines h₁ h₂).1 ?_, ?_⟩
  · rintro ⟨-, xs, t, hxs, ht, hlocal⟩
    rw [hxs] at hkeyword
    cases ht.symm.trans (Option.some.inj hkeyword)
    cases hlocal
  · by_contra hboth
    rw [(readTree_lines h₁ h₃).1 hboth] at hrefused
    cases hrefused

/-- A type behind such a global is refused. -/
theorem readTree_typeText : (readTree openText).isOk = true ∧ (readTree typeText).isOk = true ∧
    readTree (openText ++ "\n" ++ typeText) =
      .error (.unexpectedToken 2 "top-level entity" "=") :=
  ⟨by decide +kernel, by decide +kernel, error_of_map (by decide +kernel)⟩

end QirProfile.Assembly
