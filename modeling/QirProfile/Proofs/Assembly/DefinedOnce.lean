import QirProfile.Proofs.Assembly.Refusing

/-!
# What is defined twice

A body is refused for the first key that is defined twice: labels are compared with labels, and
results with results and parameters. Parameters are not compared with each other: of two parameters
with one key the body is accepted, and the key means the later one.
-/

namespace QirProfile.Assembly

/-! ## 1. One definition for each key -/

namespace FuncTree

/-- Definitions of one key are one definition, or they are parameters; they are one definition
    throughout exactly if no two parameters share a key. -/
structure DefinesOnce (t : FuncTree) (p : Program) (f : FuncId) : Prop where
  blocks : ∀ s s' b b', t.DefinesBlock p f s b → t.DefinesBlock p f s' b' → s.key = s'.key → b = b'
  values : ∀ s s' v v', t.DefinesValue p f s v → t.DefinesValue p f s' v' → s.key = s'.key →
    v = v' ∨ ∃ i j, v = .arg f i ∧ v' = .arg f j
  params : (t.paramSymbols.map Symbol.key).Nodup ↔ ∀ s s' v v', t.DefinesValue p f s v →
    t.DefinesValue p f s' v' → s.key = s'.key → v = v'

variable {t : FuncTree} {s s' : Symbol}

theorem key_index {symbols : List Symbol} (h : (symbols.map Symbol.key).Nodup) {i j : Nat}
    (hi : symbols[i]? = some s) (hj : symbols[j]? = some s') (hkey : s.key = s'.key) : i = j := by
  have hlt : i < (symbols.map Symbol.key).length := by
    rw [List.length_map]
    exact (List.getElem?_eq_some_iff.mp hi).1
  refine (List.getElem?_inj hlt h).mp ?_
  rw [List.getElem?_map, List.getElem?_map, hi, hj, Option.map_some, Option.map_some, hkey]

theorem result_index (h : (t.results.map Symbol.key).Nodup) {i j : Nat} {it jt : InstrTree}
    (hi : t.instrs[i]? = some it) (hj : t.instrs[j]? = some jt) (hs : it.result = some s)
    (hs' : jt.result = some s') (hkey : s.key = s'.key) : i = j := by
  rw [map_key_results, List.nodup_flatMap] at h
  have hmem : s.key ∈ resultKey it := by simp [resultKey, hs]
  have hmem' : s.key ∈ resultKey jt := by simp [resultKey, hs', hkey]
  obtain ⟨hilt, rfl⟩ := List.getElem?_eq_some_iff.mp hi
  obtain ⟨hjlt, rfl⟩ := List.getElem?_eq_some_iff.mp hj
  have hapart := List.pairwise_iff_getElem.mp h.2
  rcases Nat.lt_trichotomy i j with hlt | heq | hlt
  · exact (hapart i j hilt hjlt hlt hmem hmem').elim
  · exact heq
  · exact (hapart j i hjlt hilt hlt hmem' hmem).elim

theorem param_ne_result (h : ∀ r ∈ t.results, ∀ s ∈ t.paramSymbols, s.key ≠ r.key) {i j : Nat}
    {jt : InstrTree} (hi : t.paramSymbols[i]? = some s) (hj : t.instrs[j]? = some jt)
    (hs' : jt.result = some s') : s.key ≠ s'.key :=
  h s' (List.mem_filterMap.mpr ⟨jt, List.mem_of_getElem? hj, hs'⟩) s (List.mem_of_getElem? hi)

theorem definesOnce (h : t.repeated? = none) (p : Program) (f : FuncId) : t.DefinesOnce p f := by
  obtain ⟨hlabels, hresults, hapart⟩ := repeated?_eq_none.mp h
  have hvalues : ∀ s s' v v', t.DefinesValue p f s v → t.DefinesValue p f s' v' → s.key = s'.key →
      v = v' ∨ ∃ i j, v = .arg f i ∧ v' = .arg f j := by
    intro s s' v v' hv hv' hkey
    cases hv with
    | @param i _ hs =>
      cases hv' with
      | @param j _ hs' => exact .inr ⟨i, j, rfl, rfl⟩
      | result hj hs' _ => exact (param_ne_result hapart hs hj hs' hkey).elim
    | result hi hs hid =>
      cases hv' with
      | param hs' => exact (param_ne_result hapart hs' hi hs hkey.symm).elim
      | result hj hs' hid' =>
        obtain rfl := result_index hresults hi hj hs hs' hkey
        rw [Option.some.inj (hid.symm.trans hid')]
        exact .inl rfl
  refine ⟨?_, hvalues, ?_, ?_⟩
  · rintro s s' b b' ⟨hs, hb⟩ ⟨hs', hb'⟩ hkey
    obtain rfl := key_index hlabels hs hs' hkey
    exact Option.some.inj (hb.symm.trans hb')
  · intro hparams s s' v v' hv hv' hkey
    rcases hvalues s s' v v' hv hv' hkey with heq | ⟨i, j, rfl, rfl⟩
    · exact heq
    · cases hv with
      | param hs =>
        cases hv' with
        | param hs' => rw [key_index hparams hs hs' hkey]
  · intro hunique
    rw [List.nodup_iff_getElem?_ne_getElem?]
    intro i j hij hj heq
    rw [List.length_map] at hj
    have hi := List.getElem?_eq_getElem (Nat.lt_trans hij hj)
    have hj := List.getElem?_eq_getElem hj
    rw [List.getElem?_map, List.getElem?_map, hi, hj] at heq
    have hsame := hunique _ _ _ _ (.param hi) (.param hj) (Option.some.inj heq)
    cases hsame
    exact Nat.lt_irrefl _ hij

end FuncTree

/-! ## 2. Texts -/

namespace ProgramTree

variable {tree : ProgramTree} {k : Nat} {p : Program}

theorem Reaches.not_repeated (h : tree.Reaches k p) {j : Nat} (hj : j < k) {t : FuncTree}
    (ht : tree.functions[j]? = some t) : t.repeated? = none := by
  obtain ⟨p', q, t', hbefore, ht', hstep⟩ := h.before hj
  obtain rfl : t' = t := Option.some.inj (ht'.symm.trans ht)
  obtain ⟨hlt, hblocks⟩ := hbefore.next_body ht
  by_cases hempty : t'.blocks = []
  · simp [FuncTree.repeated?, FuncTree.labels, FuncTree.results, FuncTree.instrs, hempty,
      firstTaken]
  · cases hrepeated : t'.repeated? with
    | none => rfl
    | some key =>
      rw [enterStep, if_neg (by simpa using hempty), enterBody_eq hlt hblocks, hrepeated] at hstep
      split at hstep <;> cases hstep

theorem resolve_duplicate_iff {key : String} :
    tree.resolve = .error (.duplicateDefinition ("%" ++ key)) ↔ ∃ k p t, tree.Reaches k p ∧
      tree.functions[k]? = some t ∧ t.blocks ≠ [] ∧ t.KeepsSlots ∧ t.repeated? = some key := by
  constructor
  · intro h
    rcases resolve_error_cases h with hdeclaring | ⟨k, p, t, hreaches, ht, hstep⟩
    · generalize he : ReadError.duplicateDefinition ("%" ++ key) = e at hdeclaring
      cases hdeclaring with
      | duplicate name => simp [String.ext_iff] at he
      | unresolved h => cases h <;> cases he
    · obtain ⟨hlt, hblocks⟩ := hreaches.next_body ht
      exact ⟨k, p, t, hreaches, ht, (enterStep_duplicate_iff hlt hblocks).mp hstep⟩
  · rintro ⟨k, p, t, hreaches, ht, hrepeated⟩
    obtain ⟨hlt, hblocks⟩ := hreaches.next_body ht
    exact hreaches.resolve_error ht ((enterStep_duplicate_iff hlt hblocks).mpr hrepeated)

end ProgramTree

section

variable {source : String} {tree : ProgramTree}

theorem read_of_readTree (h : readTree source = .ok tree) : read source = tree.resolve := by
  rw [read, h]
  rfl

/-- In what was read every label and result is defined once, but parameters may share a name; a body
    is refused for just the first key that is repeated otherwise. -/
theorem local_definitions (h : readTree source = .ok tree) :
    (∀ m, read source = .ok m →
      ∀ (k : Nat) t, tree.functions[k]? = some t → t.DefinesOnce m ⟨k⟩) ∧
    ∀ key, read source = .error (.duplicateDefinition ("%" ++ key)) ↔ ∃ k p t, tree.Reaches k p ∧
      tree.functions[k]? = some t ∧ t.blocks ≠ [] ∧ t.KeepsSlots ∧ t.repeated? = some key := by
  rw [read_of_readTree h]
  refine ⟨fun m hm k t ht => ?_, fun key => ProgramTree.resolve_duplicate_iff⟩
  have hreaches := ProgramTree.resolve_iff_reaches.mp hm
  exact FuncTree.definesOnce
    (hreaches.not_repeated (List.getElem?_eq_some_iff.mp ht).1 ht) m ⟨k⟩

end

/-- A result takes the number of a parameter without a symbol. -/
def takenText : String :=
  "define i64 @f(i64) \x7b\n" ++
  "entry:\n" ++
  "  %0 = add i64 1, 1\n" ++
  "  ret i64 %0\n" ++
  "\x7d\n"

theorem local_definitions_taken : ∃ tree, readTree takenText = .ok tree ∧ ∃ k p t,
    tree.Reaches k p ∧ tree.functions[k]? = some t ∧ t.blocks ≠ [] ∧ t.KeepsSlots ∧
      t.repeated? = some "0" := by
  have hread : read takenText = .error (.duplicateDefinition "%0") := by decide +kernel
  cases htree : readTree takenText with
  | error e =>
    have hok : (readTree takenText).isOk = true := by decide +kernel
    rw [htree] at hok
    cases hok
  | ok tree => exact ⟨tree, rfl, ((local_definitions htree).2 "0").mp hread⟩

/-- Two parameters have one name. -/
def sharedText : String :=
  "define void @f(i64 %a, i64 %a) \x7b\n" ++
  "entry:\n" ++
  "  ret void\n" ++
  "\x7d\n"

/-- Two parameters of one name are accepted. -/
theorem shared_parameter : ∃ tree m t, readTree sharedText = .ok tree ∧ read sharedText = .ok m ∧
    tree.functions[0]? = some t ∧ t.blocks ≠ [] ∧
      t.DefinesValue m ⟨0⟩ (.named "a") (.arg ⟨0⟩ 0) ∧
      t.DefinesValue m ⟨0⟩ (.named "a") (.arg ⟨0⟩ 1) := by
  have hsymbols : (readTree sharedText).toOption.map (fun tree =>
      tree.functions.map fun t => (t.paramSymbols, t.blocks.length)) =
        some [([.named "a", .named "a"], 1)] := by decide +kernel
  have hread : (read sharedText).isOk = true := by decide +kernel
  cases hm : read sharedText with
  | error e =>
    rw [hm] at hread
    cases hread
  | ok m =>
    obtain ⟨tree, htree, hfunctions⟩ := Option.map_eq_some_iff.mp hsymbols
    obtain ⟨t, ht, hboth⟩ := List.map_eq_singleton_iff.mp hfunctions
    obtain ⟨hparams, hlength⟩ := Prod.mk.inj hboth
    refine ⟨tree, m, t, ok_of_toOption htree, rfl, by rw [ht]; rfl, ?_,
      .param (by rw [hparams]; rfl), .param (by rw [hparams]; rfl)⟩
    exact List.ne_nil_of_length_pos (hlength ▸ Nat.one_pos)

end QirProfile.Assembly
