import QirProfile.Proofs.Assembly.Entering
import QirProfile.Proofs.Program.Symbols

/-!
# Globals, functions and named types as they are entered

Before bodies are entered, a program gets its named types, its globals and its functions. As for
bodies, the loops are run once and for all.
-/

namespace QirProfile.Assembly

variable {p q : Program} {name : String}

/-! ## 1. Taken names -/

/-- Adds globals at the end of a program. -/
def addGlobals (gs : List Global) (p : Program) : Program :=
  { p with globals := p.globals ++ gs.toArray }

/-- Adds functions at the end of a program. -/
def addFunctions (fs : List Func) (p : Program) : Program :=
  { p with functions := p.functions ++ fs.toArray }

/-- No function is erased. -/
def AllLive (p : Program) : Prop := ∀ f ∈ p.functions.toList, f.erased = false

theorem takenNames_of_live (h : AllLive p) :
    p.takenNames = p.functions.toList.map Func.name ++ p.globals.toList.map Global.name := by
  rw [Program.takenNames_eq, List.filter_eq_self.mpr fun f hf => by simp [h f hf]]

theorem isTaken_false_iff (h : AllLive p) :
    p.isTaken name = false ↔ name ∉ p.functions.toList.map Func.name ∧
      name ∉ p.globals.toList.map Global.name := by
  rw [← Bool.not_eq_true, Program.isTaken_iff, takenNames_of_live h, List.mem_append, not_or]

/-! ## 2. One declaration after the other -/

/-- What globals and functions have in common when they are entered: a tree of a free name gives a
    node, which takes the name and the next handle. -/
structure Declares {τ ι ν : Type} (enter : Program → τ → Except ReadError (Program × ι))
    (name : τ → String) (Node : τ → ν → Prop) (push : List ν → Program → Program)
    (handle : Nat → ι) (size : Program → Nat) : Prop where
  push_nil : ∀ p, push [] p = p
  push_cons : ∀ n ns p, push (n :: ns) p = push ns (push [n] p)
  size_push : ∀ n p, size (push [n] p) = size p + 1
  step : ∀ p t x, enter p t = .ok x ↔ p.isTaken (name t) = false ∧
    ∃ n, Node t n ∧ x = (push [n] p, handle (size p))
  live : ∀ p t n, Node t n → AllLive p → AllLive (push [n] p)
  taken : ∀ p t n, Node t n → AllLive p → ∀ s, (push [n] p).isTaken s = false ↔
    p.isTaken s = false ∧ s ≠ name t

theorem Declares.enterAll_iff {τ ι ν : Type} {enter : Program → τ → Except ReadError (Program × ι)}
    {name : τ → String} {Node : τ → ν → Prop} {push : List ν → Program → Program}
    {handle : Nat → ι} {size : Program → Nat} (h : Declares enter name Node push handle size)
    {ts : List τ} : ∀ {p q : Program} {ids : List ι}, AllLive p →
      (enterAll enter p ts = .ok (q, ids) ↔
        ((ts.map name).Nodup ∧ ∀ t ∈ ts, p.isTaken (name t) = false) ∧
          ∃ ns, List.Forall₂ Node ts ns ∧ q = push ns p ∧
            ids = (List.range' (size p) ts.length).map handle) := by
  induction ts with
  | nil =>
    intro p q ids hlive
    constructor
    · intro hall
      cases hall
      exact ⟨⟨List.nodup_nil, by simp⟩, [], .nil, (h.push_nil _).symm, rfl⟩
    · rintro ⟨-, ns, hns, rfl, rfl⟩
      cases hns
      rw [h.push_nil]
      rfl
  | cons t ts ih =>
    intro p q ids hlive
    rw [enterAll, except_bind_ok]
    constructor
    · rintro ⟨x, hx, hrest⟩
      obtain ⟨hfree, n, hn, rfl⟩ := (h.step p t x).mp hx
      obtain ⟨⟨q', ids'⟩, hall, hpure⟩ := except_bind_ok.mp hrest
      obtain ⟨⟨hnodup, hfrees⟩, ns, hns, rfl, rfl⟩ := (ih (h.live p t n hn hlive)).mp hall
      cases hpure
      have htaken := h.taken p t n hn hlive
      refine ⟨⟨?_, ?_⟩, n :: ns, .cons hn hns, (h.push_cons n ns p).symm, ?_⟩
      · rw [List.map_cons, List.nodup_cons]
        refine ⟨?_, hnodup⟩
        intro hmem
        obtain ⟨u, hu, hname⟩ := List.mem_map.mp hmem
        exact ((htaken _).mp (hfrees u hu)).2 hname
      · intro u hu
        rcases List.mem_cons.mp hu with rfl | hu
        · exact hfree
        · exact ((htaken _).mp (hfrees u hu)).1
      · simp [h.size_push, List.range'_succ]
    · rintro ⟨⟨hnodup, hfrees⟩, ns, hns, rfl, rfl⟩
      rw [List.map_cons, List.nodup_cons] at hnodup
      cases hns with
      | @cons _ n _ ns hn hns =>
        have htaken := h.taken p t n hn hlive
        refine ⟨_, (h.step p t _).mpr ⟨hfrees t List.mem_cons_self, n, hn, rfl⟩, ?_⟩
        refine except_bind_ok.mpr
          ⟨_, (ih (h.live p t n hn hlive)).mpr ⟨⟨hnodup.2, ?_⟩, ns, hns, rfl, rfl⟩, ?_⟩
        · intro u hu
          refine (htaken _).mpr ⟨hfrees u (List.mem_cons_of_mem t hu), ?_⟩
          intro hname
          exact hnodup.1 (List.mem_map.mpr ⟨u, hu, hname⟩)
        · simp [h.size_push, h.push_cons n ns p, List.range'_succ, pure, Except.pure]

/-! ## 3. Globals and functions -/

/-- The node of a global before its initial value is known. -/
def globalNode (t : GlobalTree) : Global :=
  { name := t.name.key, ty := t.ty, linkage := t.linkage, unnamedAddr := t.unnamedAddr
    constant := t.constant, align := t.align }

theorem declares_globals : Declares enterGlobal (fun t => t.name.key)
    (fun t g => globalNode t = g) addGlobals GlobalId.mk (fun p => p.globals.size) where
  push_nil p := by simp [addGlobals]
  push_cons n ns p := by simp [addGlobals]
  size_push n p := by simp [addGlobals]
  step p t x := by
    have hsame : ({ p with globals := p.globals.push (globalNode t) } : Program) =
        addGlobals [globalNode t] p := by
      simp [addGlobals]
    simp only [enterGlobal, mapError_ok, Program.addGlobal]
    change (if p.isTaken t.name.key = true then _ else Except.ok
      (({ p with globals := p.globals.push (globalNode t) } : Program), _)) = _ ↔ _
    rw [hsame]
    cases p.isTaken t.name.key with
    | true => simp
    | false => simp [eq_comm]
  live p t n _ h := h
  taken p t n hn h s := by
    have hnext : AllLive (addGlobals [n] p) := h
    rw [isTaken_false_iff hnext, isTaken_false_iff h]
    simp [addGlobals, ← hn, globalNode, and_assoc]

/-- Attributes added one by one. -/
def addAttributes (attributes : List Attribute) : List Attribute :=
  attributes.foldl (fun l a => l.filter (·.key != a.key) ++ [a]) []

/-- The node of a function before its body is entered; `shared` are the attributes of its groups. -/
def funcNode (t : FuncTree) (shared : List Attribute) : Func :=
  { Func.declare t.name ⟨t.ret, t.params.map (·.1), t.varArg⟩
      (t.params.map fun x => x.2.bind Symbol.name?) with
    linkage := t.linkage
    unnamedAddr := t.unnamedAddr
    attributes := addAttributes (t.attributes ++ shared) }

/-- The function is the node of the tree with the attributes of its groups. -/
def IsFuncNode (groups : List (Nat × List Attribute)) (t : FuncTree) (f : Func) : Prop :=
  ∃ shared, groupAttributes groups t.name t.groups = .ok shared ∧ f = funcNode t shared

theorem foldl_addAttribute (attributes : List Attribute) (f : Func) :
    attributes.foldl Func.addAttribute f = { f with
      attributes := attributes.foldl (fun l a => l.filter (·.key != a.key) ++ [a]) f.attributes } := by
  induction attributes generalizing f with
  | nil => rfl
  | cons a attributes ih =>
    rw [List.foldl_cons, ih]
    rfl

theorem declares_functions (groups : List (Nat × List Attribute)) :
    Declares (enterFunction groups) FuncTree.name (IsFuncNode groups) addFunctions FuncId.mk
      (fun p => p.functions.size) where
  push_nil p := by simp [addFunctions]
  push_cons n ns p := by simp [addFunctions]
  size_push n p := by simp [addFunctions]
  step p t x := by
    have hnode : ∀ shared, (p.pushFunction (Func.declare t.name ⟨t.ret, t.params.map (·.1), t.varArg⟩
        (t.params.map fun x => x.2.bind Symbol.name?))).1.updateFunc ⟨p.functions.size⟩ (fun f =>
          (t.attributes ++ shared).foldl Func.addAttribute
            { f with linkage := t.linkage, unnamedAddr := t.unnamedAddr }) =
        addFunctions [funcNode t shared] p := by
      intro shared
      simp only [Program.pushFunction, Program.updateFunc, modify_push, foldl_addAttribute]
      simp [addFunctions, funcNode, addAttributes, Func.declare]
    simp only [enterFunction, except_bind_ok, mapError_ok, Program.addFunction]
    cases p.isTaken t.name with
    | true => simp
    | false =>
      simp only [Bool.false_eq_true, if_false, true_and]
      constructor
      · rintro ⟨y, hy, shared, hshared, hx⟩
        cases hy
        cases hx
        exact ⟨_, ⟨shared, hshared, rfl⟩, by rw [← hnode]; rfl⟩
      · rintro ⟨n, ⟨shared, hshared, rfl⟩, rfl⟩
        exact ⟨_, rfl, shared, hshared, by rw [← hnode]; rfl⟩
  live p t n hn h := by
    obtain ⟨shared, -, rfl⟩ := hn
    intro f hf
    simp only [addFunctions, Array.toList_append, List.mem_append, List.mem_singleton] at hf
    rcases hf with hf | rfl
    · exact h f hf
    · rfl
  taken p t n hn h s := by
    obtain ⟨shared, -, rfl⟩ := hn
    have hnext : AllLive (addFunctions [funcNode t shared] p) := by
      intro f hf
      simp only [addFunctions, Array.toList_append, List.mem_append, List.mem_singleton] at hf
      rcases hf with hf | rfl
      · exact h f hf
      · rfl
    rw [isTaken_false_iff hnext, isTaken_false_iff h]
    simp [addFunctions, funcNode, Func.declare]
    tauto

/-! ## 4. Attributes and named types -/

theorem nodup_addAttributes_from (attributes : List Attribute) : ∀ l : List Attribute,
    (l.map Attribute.key).Nodup →
      ((attributes.foldl (fun l a => l.filter (·.key != a.key) ++ [a]) l).map Attribute.key).Nodup := by
  induction attributes with
  | nil =>
    intro l h
    exact h
  | cons a attributes ih =>
    intro l h
    apply ih
    rw [List.map_append, List.nodup_append]
    refine ⟨?_, List.nodup_singleton _, ?_⟩
    · exact h.sublist (List.Sublist.map _ List.filter_sublist)
    · intro k hk k' hk'
      obtain ⟨b, hb, rfl⟩ := List.mem_map.mp hk
      obtain rfl : k' = a.key := by simpa using hk'
      have := (List.mem_filter.mp hb).2
      simpa using this

theorem nodup_addAttributes (attributes : List Attribute) :
    ((addAttributes attributes).map Attribute.key).Nodup :=
  nodup_addAttributes_from attributes [] List.nodup_nil

theorem addAttributes_from (attributes : List Attribute) : ∀ l : List Attribute,
    ((l ++ attributes).map Attribute.key).Nodup →
      attributes.foldl (fun l a => l.filter (·.key != a.key) ++ [a]) l = l ++ attributes := by
  induction attributes with
  | nil =>
    intro l _
    simp
  | cons a attributes ih =>
    intro l h
    have hfilter : l.filter (·.key != a.key) = l := by
      rw [List.filter_eq_self]
      intro b hb
      rw [List.map_append, List.nodup_append] at h
      have := h.2.2 b.key (List.mem_map_of_mem hb) a.key (by simp)
      simpa using this
    rw [List.foldl_cons, hfilter, ih (l ++ [a]) (by simpa using h)]
    simp

theorem addAttributes_of_nodup {attributes : List Attribute}
    (h : (attributes.map Attribute.key).Nodup) : addAttributes attributes = attributes := by
  exact addAttributes_from attributes [] h

/-- The named types of a list of declarations. -/
def addNamedTypes (types : List (String × Option Ty)) (p : Program) : Program :=
  types.foldl (fun p x => p.addNamedType x.1 x.2) p

theorem giveBody?_names {body : Option Ty} :
    ∀ {l l' : List (String × Option Ty)}, Program.giveBody? name body l = some l' →
      l'.map Prod.fst = l.map Prod.fst ∧ ∀ x ∈ l', x ∈ l ∨ x.2 = body ∨ ∃ y ∈ l, x.2 = y.2 := by
  intro l
  induction l with
  | nil =>
    intro l' h
    cases h
  | cons y l ih =>
    intro l' h
    obtain ⟨n, old⟩ := y
    rw [Program.giveBody?] at h
    split at h
    · cases h
      refine ⟨rfl, ?_⟩
      intro x hx
      rcases List.mem_cons.mp hx with rfl | hx
      · cases body with
        | none => exact .inl List.mem_cons_self
        | some t => exact .inr (.inl rfl)
      · exact .inl (List.mem_cons_of_mem _ hx)
    · obtain ⟨l₁, hl₁, rfl⟩ := Option.map_eq_some_iff.mp h
      obtain ⟨hnames, hbodies⟩ := ih hl₁
      refine ⟨by simp [hnames], ?_⟩
      intro x hx
      rcases List.mem_cons.mp hx with rfl | hx
      · exact .inl List.mem_cons_self
      · rcases hbodies x hx with h | h | ⟨z, hz, h⟩
        · exact .inl (List.mem_cons_of_mem _ h)
        · exact .inr (.inl h)
        · exact .inr (.inr ⟨z, List.mem_cons_of_mem _ hz, h⟩)

theorem giveBody?_none {body : Option Ty} {l : List (String × Option Ty)} :
    Program.giveBody? name body l = none ↔ name ∉ l.map Prod.fst := by
  induction l with
  | nil => simp [Program.giveBody?]
  | cons y l ih =>
    obtain ⟨n, old⟩ := y
    rw [Program.giveBody?]
    by_cases h : n = name
    · simp [h]
    · simp [h, ih, Ne.symm h]

theorem addNamedTypes_keeps {P : Ty → Prop} {types : List (String × Option Ty)}
    (htypes : ∀ x ∈ types, ∀ t ∈ x.2, P t) : ∀ p : Program, (p.namedTypes.map Prod.fst).Nodup →
      (∀ x ∈ p.namedTypes, ∀ t ∈ x.2, P t) →
      ((addNamedTypes types p).namedTypes.map Prod.fst).Nodup ∧
        ∀ x ∈ (addNamedTypes types p).namedTypes, ∀ t ∈ x.2, P t := by
  induction types with
  | nil =>
    intro p hnodup hp
    exact ⟨hnodup, hp⟩
  | cons y types ih =>
    intro p hnodup hp
    obtain ⟨name, body⟩ := y
    have hbody : ∀ t ∈ body, P t := htypes _ List.mem_cons_self
    apply ih fun x hx => htypes x (List.mem_cons_of_mem _ hx)
    · simp only [Program.addNamedType]
      cases hgive : Program.giveBody? name body p.namedTypes with
      | some l =>
        rw [Option.getD_some, (giveBody?_names hgive).1]
        exact hnodup
      | none =>
        rw [Option.getD_none, List.map_append, List.nodup_append]
        refine ⟨hnodup, List.nodup_singleton _, ?_⟩
        intro k hk k' hk'
        obtain rfl : k' = name := by simpa using hk'
        rintro rfl
        exact giveBody?_none.mp hgive hk
    · simp only [Program.addNamedType]
      intro x hx t ht
      cases hgive : Program.giveBody? name body p.namedTypes with
      | some l =>
        rw [hgive, Option.getD_some] at hx
        rcases (giveBody?_names hgive).2 x hx with h | h | ⟨z, hz, h⟩
        · exact hp x h t ht
        · exact hbody t (h ▸ ht)
        · exact hp z hz t (h ▸ ht)
      | none =>
        rw [hgive, Option.getD_none] at hx
        rcases List.mem_append.mp hx with h | h
        · exact hp x h t ht
        · obtain rfl : x = (name, body) := by simpa using h
          exact hbody t ht

theorem addNamedTypes_of_nodup {types : List (String × Option Ty)} : ∀ p : Program,
    ((p.namedTypes ++ types).map Prod.fst).Nodup →
      addNamedTypes types p = { p with namedTypes := p.namedTypes ++ types } := by
  induction types with
  | nil =>
    intro p _
    simp [addNamedTypes]
  | cons y types ih =>
    intro p h
    have hgive : Program.giveBody? y.1 y.2 p.namedTypes = none := by
      rw [giveBody?_none]
      intro hmem
      rw [List.map_append, List.nodup_append] at h
      exact h.2.2 y.1 hmem y.1 (by simp) rfl
    have hadd : p.addNamedType y.1 y.2 = { p with namedTypes := p.namedTypes ++ [y] } := by
      simp [Program.addNamedType, hgive]
    have := ih (p.addNamedType y.1 y.2) (by rw [hadd]; simpa using h)
    rw [addNamedTypes, List.foldl_cons]
    rw [addNamedTypes] at this
    rw [this, hadd]
    simp

/-! ## 5. Initial values -/

/-- The global is the node of the tree with its initial value. -/
def IsInitialized (p : Program) (symbols : List (String × Value)) (t : GlobalTree) (g : Global) :
    Prop :=
  match t.initializer with
  | none => g = globalNode t
  | some term => ∃ v, resolveTerm ⟨p, symbols, none⟩ t.ty term = .ok v ∧
    g = { globalNode t with initializer := some v }

/-- The step of the loop over initial values. -/
def setInitial (symbols : List (String × Value)) (p : Program) (x : GlobalTree × GlobalId) :
    Except ReadError Program := do
  match x.1.initializer with
  | none => return p
  | some term =>
    let v ← resolveTerm ⟨p, symbols, none⟩ x.1.ty term
    return p.setInitializer x.2 (some v)

theorem initializers_iff (p₀ : Program) {symbols : List (String × Value)} {ts : List GlobalTree} :
    ∀ {p q : Program} (xs : Array Global), p.namedTypes = p₀.namedTypes →
      p.globals = xs ++ (ts.map globalNode).toArray →
      ((ts.zip ((List.range' xs.size ts.length).map GlobalId.mk)).foldlM (setInitial symbols) p =
          .ok q ↔
        ∃ gs, List.Forall₂ (IsInitialized p₀ symbols) ts gs ∧
          q = { p with globals := xs ++ gs.toArray }) := by
  induction ts with
  | nil =>
    intro p q xs _ hp
    have hsame : ({ p with globals := xs ++ ([] : List Global).toArray } : Program) = p := by
      simp only [List.map_nil] at hp
      rw [← hp]
    constructor
    · intro h
      cases h
      exact ⟨[], .nil, hsame.symm⟩
    · rintro ⟨gs, hgs, rfl⟩
      cases hgs
      rw [hsame]
      rfl
  | cons t ts ih =>
    intro p q xs htypes hp
    rw [List.map_cons] at hp
    have hstep : ∀ p', setInitial symbols p (t, ⟨xs.size⟩) = .ok p' ↔
        ∃ g, IsInitialized p₀ symbols t g ∧
          p' = { p with globals := xs ++ (g :: ts.map globalNode).toArray } := by
      intro p'
      unfold setInitial IsInitialized
      cases t.initializer with
      | none =>
        constructor
        · intro h
          cases h
          exact ⟨_, rfl, by rw [← hp]⟩
        · rintro ⟨g, rfl, rfl⟩
          rw [← hp]
          rfl
      | some term =>
        simp only [except_bind_ok, resolveTerm_congr symbols none htypes]
        constructor
        · rintro ⟨v, hv, h⟩
          cases h
          refine ⟨_, ⟨v, hv, rfl⟩, ?_⟩
          simp only [Program.setInitializer, hp, modify_append_cons]
        · rintro ⟨g, ⟨v, hv, rfl⟩, rfl⟩
          refine ⟨v, hv, ?_⟩
          simp only [Program.setInitializer, hp, modify_append_cons]
          rfl
    rw [List.length_cons, List.range'_succ, List.map_cons, List.zip_cons_cons, List.foldlM_cons,
      except_bind_ok]
    have hnext : ∀ g : Global, xs.size + 1 = (xs.push g).size := by
      intro g
      simp
    constructor
    · rintro ⟨p₁, h₁, h⟩
      obtain ⟨g, hg, rfl⟩ := (hstep p₁).mp h₁
      rw [hnext g] at h
      obtain ⟨gs, hgs, rfl⟩ := (ih _ (by exact htypes) (by simp)).mp h
      exact ⟨g :: gs, .cons hg hgs, by simp⟩
    · rintro ⟨gs, hgs, rfl⟩
      cases hgs with
      | @cons _ g _ gs hg hgs =>
        refine ⟨_, (hstep _).mpr ⟨g, hg, rfl⟩, ?_⟩
        rw [hnext g]
        exact (ih _ (by exact htypes) (by simp)).mpr ⟨gs, hgs, by simp⟩

/-! ## 6. Programs without bodies -/

/-- Globals under their names. -/
def globalSymbols (names : List String) : List (String × Value) :=
  names.zipIdx.map fun x => (x.1, .global ⟨x.2⟩)

/-- Functions under their names. -/
def functionSymbols (names : List String) : List (String × Value) :=
  names.zipIdx.map fun x => (x.1, .func ⟨x.2⟩)

namespace ProgramTree

/-- Header lines and named types as a program. -/
def types (tree : ProgramTree) : Program :=
  addNamedTypes tree.namedTypes
    { name := tree.sourceFile.getD "module"
      sourceFile := tree.sourceFile
      dataLayout := tree.dataLayout
      targetTriple := tree.targetTriple }

/-- What global symbols stand for. -/
def symbols (tree : ProgramTree) : List (String × Value) :=
  globalSymbols (tree.globals.map fun g => g.name.key) ++
    functionSymbols (tree.functions.map FuncTree.name)

/-- The program before bodies are entered. -/
def declared (tree : ProgramTree) (fs : List Func) (gs : List Global) : Program :=
  { tree.types with functions := fs.toArray, globals := gs.toArray }

/-- Enters the body of a function, if it has one. -/
def enterStep (symbols : List (String × Value)) (p : Program) (x : FuncTree × FuncId) :
    Except ReadError Program :=
  if x.1.blocks.isEmpty then .ok p else enterBody symbols p x.2 x.1

/-- The functions and globals of a program are those that a tree declares. -/
structure Declares (tree : ProgramTree) (fs : List Func) (gs : List Global) : Prop where
  globalNames : (tree.globals.map fun g => g.name.key).Nodup
  functionNames : (tree.functions.map FuncTree.name).Nodup
  apart : ∀ t ∈ tree.functions, t.name ∉ tree.globals.map fun g => g.name.key
  functions : List.Forall₂ (IsFuncNode tree.groups) tree.functions fs
  globals : List.Forall₂ (IsInitialized tree.types tree.symbols) tree.globals gs

end ProgramTree

theorem addNamedTypes_nodes (types : List (String × Option Ty)) : ∀ p : Program,
    addNamedTypes types p = { p with namedTypes := (addNamedTypes types p).namedTypes } := by
  induction types with
  | nil =>
    intro p
    rfl
  | cons y types ih =>
    intro p
    have := ih (p.addNamedType y.1 y.2)
    simp only [addNamedTypes, List.foldl_cons] at this ⊢
    exact this

theorem zip_globalSymbols (ts : List GlobalTree) :
    ((ts.zip ((List.range' 0 ts.length).map GlobalId.mk)).map fun x =>
        (x.1.name.key, Value.global x.2)) =
      globalSymbols (ts.map fun g => g.name.key) := by
  apply List.ext_getElem
  · simp [globalSymbols]
  · intro k h₁ h₂
    simp [globalSymbols]

theorem zip_functionSymbols (ts : List FuncTree) :
    ((ts.zip ((List.range' 0 ts.length).map FuncId.mk)).map fun x => (x.1.name, Value.func x.2)) =
      functionSymbols (ts.map FuncTree.name) := by
  apply List.ext_getElem
  · simp [functionSymbols]
  · intro k h₁ h₂
    simp [functionSymbols]

section

variable {tree : ProgramTree}

theorem nodes_types : tree.types.functions = #[] ∧ tree.types.globals = #[] := by
  rw [ProgramTree.types, addNamedTypes_nodes]
  exact ⟨rfl, rfl⟩

theorem allLive_types : AllLive tree.types := by
  intro f hf
  rw [nodes_types.1] at hf
  cases hf

theorem enterGlobals_iff {ids : List GlobalId} :
    enterAll enterGlobal tree.types tree.globals = .ok (q, ids) ↔
      (tree.globals.map fun g => g.name.key).Nodup ∧
        q = addGlobals (tree.globals.map globalNode) tree.types ∧
        ids = (List.range' 0 tree.globals.length).map GlobalId.mk := by
  have hfree : ∀ name, tree.types.isTaken name = false := by
    intro name
    rw [isTaken_false_iff allLive_types, nodes_types.1, nodes_types.2]
    simp
  have hforall : ∀ {ns : List Global},
      List.Forall₂ (fun t g => globalNode t = g) tree.globals ns ↔
        tree.globals.map globalNode = ns := by
    intro ns
    rw [← List.forall₂_map_left_iff, List.forall₂_eq_eq_eq]
  rw [declares_globals.enterAll_iff allLive_types]
  simp only [hfree, implies_true, and_true, hforall, nodes_types.2, Array.size_empty]
  constructor
  · rintro ⟨hnodup, ns, rfl, rfl, rfl⟩
    exact ⟨hnodup, rfl, rfl⟩
  · rintro ⟨hnodup, rfl, rfl⟩
    exact ⟨hnodup, _, rfl, rfl, rfl⟩

theorem enterFunctions_iff {ids : List FuncId} :
    enterAll (enterFunction tree.groups) (addGlobals (tree.globals.map globalNode) tree.types)
        tree.functions = .ok (q, ids) ↔
      ((tree.functions.map FuncTree.name).Nodup ∧
        ∀ t ∈ tree.functions, t.name ∉ tree.globals.map fun g => g.name.key) ∧
      ∃ fs, List.Forall₂ (IsFuncNode tree.groups) tree.functions fs ∧
        q = tree.declared fs (tree.globals.map globalNode) ∧
        ids = (List.range' 0 tree.functions.length).map FuncId.mk := by
  have hlive : AllLive (addGlobals (tree.globals.map globalNode) tree.types) := allLive_types
  have hfree : ∀ name, (addGlobals (tree.globals.map globalNode) tree.types).isTaken name = false ↔
      name ∉ tree.globals.map fun g => g.name.key := by
    intro name
    rw [isTaken_false_iff hlive]
    simp [addGlobals, nodes_types.1, nodes_types.2, globalNode, Function.comp_def]
  have hpush : ∀ fs, addFunctions fs (addGlobals (tree.globals.map globalNode) tree.types) =
      tree.declared fs (tree.globals.map globalNode) := by
    intro fs
    simp [addFunctions, addGlobals, ProgramTree.declared, nodes_types.1, nodes_types.2]
  have hsize : (addGlobals (tree.globals.map globalNode) tree.types).functions.size = 0 := by
    simp [addGlobals, nodes_types.1]
  rw [(declares_functions tree.groups).enterAll_iff hlive]
  simp only [hfree, hpush, hsize]

theorem setInitials_iff (fs : List Func) :
    (tree.globals.zip ((List.range' 0 tree.globals.length).map GlobalId.mk)).foldlM
        (setInitial tree.symbols) (tree.declared fs (tree.globals.map globalNode)) = .ok q ↔
      ∃ gs, List.Forall₂ (IsInitialized tree.types tree.symbols) tree.globals gs ∧
        q = tree.declared fs gs := by
  refine (initializers_iff tree.types (p := tree.declared fs (tree.globals.map globalNode)) #[] rfl
    (by simp [ProgramTree.declared])).trans ?_
  simp [ProgramTree.declared]

theorem resolve_of_declares {fs : List Func} {gs : List Global} (h : tree.Declares fs gs) :
    tree.resolve = (tree.functions.zip ((List.range' 0 tree.functions.length).map
      FuncId.mk)).foldlM (ProgramTree.enterStep tree.symbols) (tree.declared fs gs) := by
  have hglobals := enterGlobals_iff.mpr ⟨h.globalNames, rfl, rfl⟩
  have hfunctions := enterFunctions_iff.mpr ⟨⟨h.functionNames, h.apart⟩, fs, h.functions, rfl, rfl⟩
  have hinitials := (setInitials_iff fs).mpr ⟨gs, h.globals, rfl⟩
  change (enterAll enterGlobal tree.types tree.globals >>= _) = _
  rw [hglobals]
  change (enterAll (enterFunction tree.groups) _ tree.functions >>= _) = _
  rw [hfunctions]
  change (List.foldlM (setInitial ((tree.globals.zip _).map _ ++ (tree.functions.zip _).map _)) _
    _ >>= _) = _
  simp only [zip_globalSymbols, zip_functionSymbols]
  change (List.foldlM (setInitial tree.symbols) _ _ >>= _) = _
  rw [hinitials]
  rfl

/-- A tree becomes a program just if its declarations can be entered and then its bodies, one by
    one. -/
theorem resolve_iff {m : Program} : tree.resolve = .ok m ↔ ∃ fs gs,
    tree.Declares fs gs ∧ (tree.functions.zip ((List.range' 0 tree.functions.length).map
      FuncId.mk)).foldlM (ProgramTree.enterStep tree.symbols) (tree.declared fs gs) = .ok m := by
  constructor
  · intro h
    unfold ProgramTree.resolve at h
    simp only [except_bind_ok] at h
    obtain ⟨⟨p₁, gids⟩, h₁, ⟨p₂, fids⟩, h₂, p₃, h₃, h₄⟩ := h
    obtain ⟨hgnodup, rfl, rfl⟩ := enterGlobals_iff.mp h₁
    obtain ⟨⟨hfnodup, hapart⟩, fs, hfs, rfl, rfl⟩ := enterFunctions_iff.mp h₂
    simp only [zip_globalSymbols, zip_functionSymbols] at h₃ h₄
    obtain ⟨gs, hgs, rfl⟩ := (setInitials_iff fs).mp h₃
    exact ⟨fs, gs, ⟨hgnodup, hfnodup, hapart, hfs, hgs⟩, h₄⟩
  · rintro ⟨fs, gs, hdeclares, h⟩
    rw [resolve_of_declares hdeclares, h]

end

end QirProfile.Assembly
