import QirProfile.Proofs.Program.Copies
import QirProfile.Proofs.Program.Shrinking

/-!
# Programs that fit while they are worked on

While calls get copies of their own, a program is for a time not as `Verified` asks: replaced
instructions still stand in their blocks, and may refer to functions that are gone. `Fitting`
describes such a program. The instructions of a list `D` are left out of account, those of `U` are
referred to by nothing any more, and what remains is as it should be. Besides, every function that
an instruction mentions lies under the function of the instruction, in an order of the functions
(`Layers`) that only plain calls may follow to an equal.

Here it is proved that each change of a program keeps it fitting; `Fitting.verified` closes the
circle.
-/

namespace QirProfile

variable {n : Nat} {γ' : Layers} {i id anchor new : InstrId} {b c : BlockId} {g : FuncId}
  {v : Value} {d : Edit.Draft}

/-! ## 1. Layers of functions -/

/-- An order of functions. Functions with an age may be walked where they stand; the others are
    only ever copied. -/
structure Layers where
  height : FuncId → Nat
  age : FuncId → Option Nat

namespace Layers

variable {γ : Layers} {f g h : FuncId}

/-- `g` may be walked while `f` is: it lies deeper, or it is younger. -/
def Under (γ : Layers) (g f : FuncId) : Prop :=
  ∃ n, γ.age g = some n ∧
    (γ.height g < γ.height f ∨ γ.height g = γ.height f ∧ ∃ m, γ.age f = some m ∧ m < n)

theorem Under.trans (h₁ : γ.Under f g) (h₂ : γ.Under g h) : γ.Under f h := by
  obtain ⟨n, hf, hfg⟩ := h₁
  obtain ⟨m, hg, hgh⟩ := h₂
  refine ⟨n, hf, ?_⟩
  rcases hfg with hfg | ⟨hfg, m', hg', hlt⟩
  · exact .inl (hgh.elim (Nat.lt_trans hfg) fun heq => heq.1 ▸ hfg)
  · rcases hgh with hgh | ⟨hgh, k, hh, hk⟩
    · exact .inl (hfg ▸ hgh)
    · rw [hg, Option.some_inj] at hg'
      exact .inr ⟨hfg.trans hgh, k, hh, by omega⟩

theorem Under.irrefl (f : FuncId) : ¬ γ.Under f f := by
  rintro ⟨n, hf, hlt | ⟨-, m, hf', hlt⟩⟩
  · exact Nat.lt_irrefl _ hlt
  · rw [hf, Option.some_inj] at hf'
    omega

/-- `f` may refer to `g`. -/
def Reach (γ : Layers) (g f : FuncId) : Prop :=
  γ.Under g f ∨ γ.age g = none ∧ γ.height g ≤ γ.height f

theorem Under.reach (h : γ.Under g f) : γ.Reach g f := .inl h

theorem Under.not_reach (h : γ.Under f g) : ¬ γ.Reach g f := by
  rintro (hunder | ⟨hage, hheight⟩)
  · exact Under.irrefl f (h.trans hunder)
  · obtain ⟨n, -, hlt | ⟨-, m, hg, -⟩⟩ := h
    · omega
    · rw [hage] at hg
      cases hg

theorem not_reach_self (h : γ.age f = some n) : ¬ γ.Reach f f := by
  rintro (hunder | ⟨hage, -⟩)
  · exact Under.irrefl f hunder
  · rw [hage] at h
    cases h

theorem Reach.trans_under (h₁ : γ.Reach g f) (h₂ : γ.Under f h) : γ.Reach g h := by
  rcases h₁ with hunder | ⟨hage, hheight⟩
  · exact .inl (hunder.trans h₂)
  · obtain ⟨n, -, hlt | ⟨heq, -⟩⟩ := h₂
    · exact .inr ⟨hage, by omega⟩
    · exact .inr ⟨hage, by omega⟩

/-- Further functions get their place in the order; the first `n` keep theirs. -/
def Extends (γ γ' : Layers) (n : Nat) : Prop :=
  ∀ k : FuncId, k.index < n → γ'.height k = γ.height k ∧ γ'.age k = γ.age k

theorem Extends.refl (γ : Layers) (n : Nat) : γ.Extends γ n := fun _ _ => ⟨rfl, rfl⟩

theorem Extends.trans {γ₁ γ₂ γ₃ : Layers} {m : Nat} (h₁ : γ₁.Extends γ₂ m)
    (h₂ : γ₂.Extends γ₃ n) (hle : m ≤ n) : γ₁.Extends γ₃ m := by
  intro k hk
  obtain ⟨hheight₁, hage₁⟩ := h₁ k hk
  obtain ⟨hheight₂, hage₂⟩ := h₂ k (Nat.lt_of_lt_of_le hk hle)
  exact ⟨hheight₂.trans hheight₁, hage₂.trans hage₁⟩

theorem Extends.under (h : γ.Extends γ' n) (hg : g.index < n)
    (hf : f.index < n) : γ'.Under g f ↔ γ.Under g f := by
  unfold Under
  rw [(h g hg).1, (h g hg).2, (h f hf).1, (h f hf).2]

theorem Extends.reach (h : γ.Extends γ' n) (hg : g.index < n)
    (hf : f.index < n) : γ'.Reach g f ↔ γ.Reach g f := by
  unfold Reach
  rw [h.under hg hf, (h g hg).1, (h g hg).2, (h f hf).1]

end Layers

/-- The instruction of a draft, before it stands in a block. -/
def Edit.Draft.instr (d : Edit.Draft) : Instr :=
  { kind := d.kind, ty := d.ty, operands := d.operands, name := d.name }

namespace Program

open Value (mentions)

variable {γ γ' : Layers} {U U' D D' : List InstrId} {p q : Program} {f : FuncId}

/-! ## 2. Operands -/

/-- What is asked of an operand in a function. -/
structure OperandFits (γ : Layers) (U : List InstrId) (p : Program) (f : FuncId) (v : Value) :
    Prop where
  flat : v.Flat
  problem : p.operandProblem? f v = none
  inRange : ∀ g k, v = .arg g k → k < (p.func g).params.length
  unused : ∀ i, v = .instr i → i ∉ U
  under : ∀ g, mentions (.func g) v = true → γ.Under g f

/-- What is asked of the callee of a plain call, with that number of arguments. -/
structure CalleeFits (γ : Layers) (p : Program) (f g : FuncId) (arity : Nat) : Prop where
  live : (p.func g).erased = false
  copied : γ.age g = none
  height : γ.height g ≤ γ.height f
  params : (p.func g).params.length = arity
  fixed : (p.func g).varArg = false

/-- The operands of an instruction fit, or those of a plain call. -/
def OperandsFit (γ : Layers) (U : List InstrId) (p : Program) (f : FuncId) (i : Instr) : Prop :=
  (∀ v ∈ i.operands, OperandFits γ U p f v) ∨
    ∃ marker args g, i.kind = .call marker ∧ i.operands = args ++ [.func g] ∧
      (∀ v ∈ args, OperandFits γ U p f v) ∧ CalleeFits γ p f g args.length

theorem Sound.live_of_functionOf (hp : p.Sound) (h : p.functionOf? i = some f) :
    (p.instr i).erased = false := by
  obtain ⟨b, hb, -⟩ := Option.bind_eq_some_iff.mp h
  exact hp.instr_live (hp.mem_instrs.mpr hb)

theorem operandProblem?_of_live {g : FuncId} : (v : Value) →
    (∀ w, w.isLocal = true → mentions w v = false) →
    (∀ k, mentions (.func k) v = true → (p.func k).erased = false → (q.func k).erased = false) →
    p.operandProblem? f v = none → q.operandProblem? g v = none
  | .instr i, hlocal, _, _ => absurd (Value.mentions_self _) (Bool.eq_false_iff.mp (hlocal _ rfl))
  | .arg h k, hlocal, _, _ => absurd (Value.mentions_self _) (Bool.eq_false_iff.mp (hlocal _ rfl))
  | .block b, hlocal, _, _ => absurd (Value.mentions_self _) (Bool.eq_false_iff.mp (hlocal _ rfl))
  | .func k, _, hlive, h => by
    simp only [operandProblem?, ite_eq_right_iff, reduceCtorEq, imp_false, Bool.not_eq_true] at h ⊢
    exact hlive k (Value.mentions_self _) h
  | .cast op v ty, hlocal, hlive, h => by
    have hinside : ∀ w, mentions w v = true → mentions w (.cast op v ty) = true :=
      fun w hw => by simp [mentions, hw]
    refine operandProblem?_of_live v (fun w hw => ?_) (fun k hk => hlive k (hinside _ hk)) h
    exact Bool.eq_false_iff.mpr fun hmem => Bool.eq_false_iff.mp (hlocal w hw) (hinside w hmem)
  | .gep inbounds source base vs ty, hlocal, hlive, h => by
    have hinside : ∀ w, mentions w base = true →
        mentions w (.gep inbounds source base vs ty) = true := fun w hw => by simp [mentions, hw]
    refine operandProblem?_of_live base (fun w hw => ?_) (fun k hk => hlive k (hinside _ hk)) h
    exact Bool.eq_false_iff.mpr fun hmem => Bool.eq_false_iff.mp (hlocal w hw) (hinside w hmem)
  | .global _, _, _, _ | .int _ _, _, _, _ | .float _ _, _, _, _ | .null _, _, _, _
  | .undef _, _, _, _ | .zero _, _, _, _ | .bytes _, _, _, _ | .array _ _, _, _, _
  | .struct _ _, _, _, _ => rfl

namespace OperandFits

theorem functionOf (h : OperandFits γ U p f (.instr i)) :
    p.functionOf? i = some f := by
  have hproblem := h.problem
  unfold operandProblem? at hproblem
  by_contra hother
  rw [if_pos hother] at hproblem
  split at hproblem <;> cases hproblem

theorem parent (h : OperandFits γ U p f (.block b)) :
    (p.block b).parent = some f :=
  operandProblem?_block h.problem

theorem owner {k : Nat} (h : OperandFits γ U p f (.arg g k)) : g = f := by
  have hproblem := h.problem
  unfold operandProblem? at hproblem
  by_contra hother
  rw [if_pos hother] at hproblem
  cases hproblem

theorem not_mentions {w : Value} (h : OperandFits γ U p f v) (hv : v.isLocal = false)
    (hw : w.isLocal = true) : mentions w v = false := by
  refine Bool.eq_false_iff.mpr fun hmem => ?_
  rw [h.flat w hw hmem, hv] at hw
  cases hw

theorem of_instr (hp : p.Sound) (h : p.functionOf? i = some f) (hi : i ∉ U) :
    OperandFits γ U p f (.instr i) where
  flat := Value.flat_of_isLocal rfl
  problem := by
    unfold operandProblem?
    rw [if_neg (by simp [hp.live_of_functionOf h]), if_neg (not_not.mpr h)]
  inRange := nofun
  unused _ heq := Value.instr.inj heq ▸ hi
  under _ hmem := nomatch Value.mentions_of_isLocal rfl hmem

theorem of_block (hp : p.Sound) (h : (p.block b).parent = some f) :
    OperandFits γ U p f (.block b) where
  flat := Value.flat_of_isLocal rfl
  problem := by
    have hlive := hp.block_live_of_listed (hp.mem_blocks.mpr h)
    unfold operandProblem?
    rw [if_neg (by simp [hlive]), if_neg (not_not.mpr h)]
  inRange := nofun
  unused := nofun
  under _ hmem := nomatch Value.mentions_of_isLocal rfl hmem

theorem of_arg {k : Nat} (h : k < (p.func f).params.length) : OperandFits γ U p f (.arg f k) where
  flat := Value.flat_of_isLocal rfl
  problem := by
    unfold operandProblem?
    rw [if_neg (not_not.mpr rfl)]
  inRange _ _ heq := by
    cases heq
    exact h
  unused := nofun
  under _ hmem := nomatch Value.mentions_of_isLocal rfl hmem

theorem of_func (hlive : (p.func g).erased = false) (hunder : γ.Under g f) :
    OperandFits γ U p f (.func g) where
  flat := Value.flat_func g
  problem := by
    unfold operandProblem?
    rw [if_neg (by simp [hlive])]
  inRange := nofun
  unused := nofun
  under k hmem := by
    simp only [mentions, beq_iff_eq, Value.func.injEq] at hmem
    exact hmem ▸ hunder

theorem of_int (bits : Nat) (n : Int) : OperandFits γ U p f (.int bits n) where
  flat := Value.flat_int bits n
  problem := rfl
  inRange := nofun
  unused := nofun
  under _ hmem := by simp [mentions] at hmem

theorem of_undef (ty : Ty) : OperandFits γ U p f (.undef ty) where
  flat := Value.flat_undef ty
  problem := rfl
  inRange := nofun
  unused := nofun
  under _ hmem := by simp [mentions] at hmem

theorem transport (h : OperandFits γ U p f v) (hq : q.Sound)
    (hinstr : ∀ i, v = .instr i → p.functionOf? i = some f → i ∉ U →
      q.functionOf? i = some f ∧ i ∉ U')
    (hblock : ∀ b, (p.block b).parent = some f → (q.block b).parent = some f)
    (hfunc : ∀ g, mentions (.func g) v = true → (p.func g).erased = false →
      (q.func g).erased = false)
    (hparams : (q.func f).params.length = (p.func f).params.length)
    (hunder : ∀ g, γ.Under g f → γ'.Under g f) : OperandFits γ' U' q f v := by
  cases hlocal : v.isLocal with
  | false =>
    have hnone : ∀ w : Value, w.isLocal = true → mentions w v = false :=
      fun w hw => h.not_mentions hlocal hw
    refine ⟨h.flat, operandProblem?_of_live v hnone hfunc h.problem, ?_, ?_,
      fun g hg => hunder g (h.under g hg)⟩
    · rintro g k rfl
      cases hlocal
    · rintro i rfl
      cases hlocal
  | true =>
    cases v <;> simp only [Value.isLocal, Bool.false_eq_true] at hlocal
    case instr i =>
      obtain ⟨hi, hU⟩ := hinstr i rfl h.functionOf (h.unused i rfl)
      exact of_instr hq hi hU
    case arg g k =>
      obtain rfl := h.owner
      exact of_arg (hparams ▸ h.inRange g k rfl)
    case block b => exact of_block hq (hblock b h.parent)

end OperandFits

/-! ## 3. Instructions and blocks -/

/-- What is asked of an instruction in a function. -/
structure Fits (γ : Layers) (U : List InstrId) (p : Program) (f : FuncId) (i : Instr) : Prop where
  incoming : ∀ blocks, i.kind = .phi blocks →
    blocks.length = i.operands.length ∧ ∀ c ∈ blocks, (p.block c).parent = some f
  operands : OperandsFit γ U p f i

/-- The instructions of a block that are taken into account. -/
def standing (p : Program) (D : List InstrId) (b : BlockId) : List InstrId :=
  (p.block b).instrs.filter (· ∉ D)

/-- Instructions of which the last one is the only terminator and the first ones are the phis. -/
structure Ordered (p : Program) (ids : List InstrId) : Prop where
  ends : ∃ last, ids.getLast? = some last ∧ (p.instr last).isTerminator = true
  last : ∀ i ∈ ids, (p.instr i).isTerminator = true → ids.getLast? = some i
  phisFirst : ids.Pairwise fun i j => (p.instr j).isPhi = true → (p.instr i).isPhi = true

/-- What is asked of a block of a function. -/
structure BodyFits (γ : Layers) (U D : List InstrId) (p : Program) (f : FuncId) (b : BlockId) :
    Prop where
  order : p.Ordered (p.standing D b)
  fits : ∀ i ∈ p.standing D b, Fits γ U p f (p.instr i)

/-- What is asked of a program that is being worked on. -/
structure Fitting (γ : Layers) (U D : List InstrId) (p : Program) : Prop where
  sound : p.Sound
  ages : ∀ f n, γ.age f = some n → f.index < p.functions.size ∧ n ≤ p.functions.size
  bounded : ∀ i, i ∈ U ∨ i ∈ D → i.index < p.instrs.size
  bodies : ∀ f, (p.func f).erased = false → ∀ b ∈ (p.func f).blocks, BodyFits γ U D p f b

theorem mem_standing :
    i ∈ p.standing D b ↔ i ∈ (p.block b).instrs ∧ i ∉ D := by
  simp [standing]

theorem Ordered.congr {ids : List InstrId} (h : p.Ordered ids)
    (hshape : ∀ i ∈ ids, (q.instr i).isTerminator = (p.instr i).isTerminator ∧
      (q.instr i).isPhi = (p.instr i).isPhi) : q.Ordered ids := by
  obtain ⟨last, hlast, hterm⟩ := h.ends
  refine ⟨⟨last, hlast, ?_⟩, fun i hi ht => h.last i hi ?_, ?_⟩
  · rw [(hshape last (List.mem_of_getLast? hlast)).1]
    exact hterm
  · rwa [← (hshape i hi).1]
  · refine h.phisFirst.imp_of_mem fun hi hj hij => ?_
    rwa [(hshape _ hi).2, (hshape _ hj).2]

theorem OperandsFit.flat {i : Instr} (h : OperandsFit γ U p f i) : ∀ v ∈ i.operands, v.Flat := by
  rcases h with h | ⟨marker, args, g, -, hoperands, hargs, -⟩
  · exact fun v hv => (h v hv).flat
  · intro v hv
    rw [hoperands] at hv
    rcases List.mem_append.mp hv with hv | hv
    · exact (hargs v hv).flat
    · rw [List.mem_singleton.mp hv]
      exact Value.flat_func g

theorem Fits.map {i j : Instr} {f' : FuncId} {φ : Value → Value} {β : BlockId → BlockId}
    (h : Fits γ U p f i)
    (hphi : ∀ blocks, j.kind = .phi blocks →
      ∃ sources, i.kind = .phi sources ∧ blocks = sources.map β)
    (hcall : ∀ marker, i.kind = .call marker → ∃ marker', j.kind = .call marker')
    (hoperands : j.operands = i.operands.map φ) (hfunc : ∀ g, φ (.func g) = .func g)
    (hblock : ∀ c, (p.block c).parent = some f → (q.block (β c)).parent = some f')
    (hvalue : ∀ v ∈ i.operands, OperandFits γ U p f v → OperandFits γ' U' q f' (φ v))
    (hcallee : ∀ g n, .func g ∈ i.operands → CalleeFits γ p f g n → CalleeFits γ' q f' g n) :
    Fits γ' U' q f' j := by
  constructor
  · intro blocks hkind
    obtain ⟨sources, hsources, rfl⟩ := hphi blocks hkind
    obtain ⟨hlength, hparents⟩ := h.incoming sources hsources
    rw [hoperands, List.length_map, List.length_map]
    refine ⟨hlength, fun c hc => ?_⟩
    obtain ⟨b, hb, rfl⟩ := List.mem_map.mp hc
    exact hblock b (hparents b hb)
  · unfold OperandsFit
    rw [hoperands]
    rcases h.operands with hall | ⟨marker, args, g, hkind, hargs, hall, hg⟩
    · refine .inl fun v hv => ?_
      obtain ⟨w, hw, rfl⟩ := List.mem_map.mp hv
      exact hvalue w hw (hall w hw)
    · obtain ⟨marker', hkind'⟩ := hcall marker hkind
      have hmem : ∀ w ∈ args, w ∈ i.operands := fun w hw => hargs ▸ List.mem_append_left _ hw
      refine .inr ⟨marker', args.map φ, g, hkind', ?_, ?_, ?_⟩
      · rw [hargs, List.map_append, List.map_singleton, hfunc]
      · intro v hv
        obtain ⟨w, hw, rfl⟩ := List.mem_map.mp hv
        exact hvalue w (hmem w hw) (hall w hw)
      · rw [List.length_map]
        exact hcallee g _ (hargs ▸ List.mem_append_right _ (List.mem_singleton_self _)) hg

theorem Fits.same {i : Instr} (h : Fits γ U p f i)
    (hblock : ∀ c, (p.block c).parent = some f → (q.block c).parent = some f)
    (hvalue : ∀ v ∈ i.operands, OperandFits γ U p f v → OperandFits γ' U' q f v)
    (hcallee : ∀ g n, .func g ∈ i.operands → CalleeFits γ p f g n → CalleeFits γ' q f g n) :
    Fits γ' U' q f i :=
  h.map (φ := id) (β := id) (fun blocks hb => ⟨blocks, hb, (List.map_id _).symm⟩)
    (fun marker hm => ⟨marker, hm⟩) (List.map_id _).symm (fun _ => rfl) hblock hvalue hcallee

/-- Nodes stand where they stood. -/
structure SamePlaces (p q : Program) : Prop where
  func : ∀ f, q.func f = p.func f
  block : ∀ b, (q.block b).parent = (p.block b).parent
  instr : ∀ i, (q.instr i).parent = (p.instr i).parent

theorem SamePlaces.functionOf (h : p.SamePlaces q) (i : InstrId) :
    q.functionOf? i = p.functionOf? i := by
  unfold functionOf?
  rw [h.instr]
  cases (p.instr i).parent with
  | none => rfl
  | some b => exact h.block b

theorem OperandFits.samePlaces (h : OperandFits γ U p f v) (hs : p.SamePlaces q)
    (hq : q.Sound) : OperandFits γ U q f v :=
  h.transport hq (fun i _ hi hU => ⟨(hs.functionOf i).trans hi, hU⟩)
    (fun b hb => (hs.block b).trans hb) (fun g _ hg => by rwa [hs.func]) (by rw [hs.func])
    fun _ hg => hg

theorem CalleeFits.samePlaces (h : CalleeFits γ p f g n)
    (hs : p.SamePlaces q) : CalleeFits γ q f g n := by
  obtain ⟨h₁, h₂, h₃, h₄, h₅⟩ := h
  rw [← hs.func g] at h₁ h₄ h₅
  exact ⟨h₁, h₂, h₃, h₄, h₅⟩

theorem Fits.samePlaces {i : Instr} (h : Fits γ U p f i) (hs : p.SamePlaces q) (hq : q.Sound) :
    Fits γ U q f i :=
  h.same (fun c hc => (hs.block c).trans hc) (fun _ _ hv => hv.samePlaces hs hq)
    fun _ _ _ hg => hg.samePlaces hs

theorem SameFrame.places (h : p.SameFrame q) (hfunc : ∀ f, q.func f = p.func f) : p.SamePlaces q :=
  ⟨hfunc, fun b => (h.block b).1, fun i => (h.instr i).1⟩

theorem Fitting.functionOf (h : Fitting γ U D p)
    (hb : b ∈ (p.func f).blocks) (hi : i ∈ p.standing D b) : p.functionOf? i = some f :=
  Option.bind_eq_some_iff.mpr
    ⟨b, h.sound.mem_instrs.mp (mem_standing.mp hi).1, h.sound.mem_blocks.mp hb⟩

theorem Fitting.fits (h : Fitting γ U D p) (hi : p.functionOf? i = some f)
    (hf : (p.func f).erased = false) (hD : i ∉ D) : Fits γ U p f (p.instr i) := by
  obtain ⟨b, hib, hbf⟩ := Option.bind_eq_some_iff.mp hi
  exact (h.bodies f hf b (h.sound.mem_blocks.mpr hbf)).fits i
    (mem_standing.mpr ⟨h.sound.mem_instrs.mpr hib, hD⟩)

theorem Fitting.rework (h : Fitting γ U D p) (hs : p.SameFrame q) (hfunc : ∀ f, q.func f = p.func f)
    (hshape : ∀ i, (q.instr i).isTerminator = (p.instr i).isTerminator ∧
      (q.instr i).isPhi = (p.instr i).isPhi)
    (hfits : ∀ f i, (p.func f).erased = false → p.functionOf? i = some f → i ∉ D →
      Fits γ U q f (q.instr i)) : Fitting γ U D q := by
  refine ⟨(hs.evolves h.sound).1, fun f n hn => hs.functions ▸ h.ages f n hn,
    fun i hi => hs.instrs ▸ h.bounded i hi, fun f hf b hb => ?_⟩
  rw [hfunc] at hf hb
  have hbody := h.bodies f hf b hb
  have hstanding : q.standing D b = p.standing D b := by
    unfold standing
    rw [(hs.block b).2.1]
  refine ⟨hstanding ▸ hbody.order.congr fun i _ => hshape i, fun i hi => ?_⟩
  rw [hstanding] at hi
  exact hfits f i hf (h.functionOf hb hi) (mem_standing.mp hi).2

/-! ## 4. Replaced uses and names -/

theorem operands_replaceUses
    (hflat : ∀ w ∈ (p.instr i).operands, w.Flat) (hlive : (p.instr i).erased = false) :
    ((p.replaceUses (.instr id) v).instr i).operands =
      (p.instr i).operands.map fun w => if w = .instr id then v else w := by
  rw [instr_replaceUses]
  split
  · exact List.map_congr_left fun w hw => (hflat w hw).substitute rfl v
  · rename_i hnot
    refine ((List.map_congr_left fun w hw => ?_).trans (List.map_id _)).symm
    refine if_neg fun heq => hnot ?_
    rw [hlive, Instr.uses_of_mem (heq ▸ hw)]
    rfl

theorem Fitting.replaceUses (h : Fitting γ U D p)
    (hv : ∀ f, p.functionOf? id = some f → (p.func f).erased = false → OperandFits γ U p f v) :
    Fitting γ U D (p.replaceUses (.instr id) v) := by
  have hs := sameFrame_replaceUses p (.instr id) v
  have hplaces : p.SamePlaces (p.replaceUses (.instr id) v) := hs.places fun _ => rfl
  have hq := (hs.evolves h.sound).1
  refine h.rework hs (fun _ => rfl) (fun i => ?_) fun f i hf hi hD => ?_
  · unfold Instr.isTerminator Instr.isPhi
    rw [kind_replaceUses]
    exact ⟨rfl, rfl⟩
  · have hfits := h.fits hi hf hD
    refine hfits.map (β := fun c => c) ?_ ?_
      (operands_replaceUses hfits.operands.flat (h.sound.live_of_functionOf hi))
      (fun g => if_neg nofun) (fun c hc => hc) ?_ fun g n _ hg => hg.samePlaces hplaces
    · intro blocks hkind
      rw [kind_replaceUses] at hkind
      exact ⟨blocks, hkind, (List.map_id' _).symm⟩
    · intro marker hkind
      exact ⟨marker, (kind_replaceUses ..).trans hkind⟩
    · intro w _ hw
      split
      · rename_i heq
        exact (hv f (heq ▸ hw).functionOf hf).samePlaces hplaces hq
      · exact hw.samePlaces hplaces hq

theorem Fitting.turnUses {j : InstrId} (h : Fitting γ U D p) (hid : p.functionOf? id = some f)
    (hj : p.functionOf? j = some f) (hU : j ∉ U) :
    Fitting γ U D (p.replaceUses (.instr id) (.instr j)) := by
  refine h.replaceUses fun f' hf' _ => ?_
  obtain rfl : f = f' := Option.some.inj (hid.symm.trans hf')
  exact .of_instr h.sound hj hU

theorem Fitting.not_mem_replaceUses (h : Fitting γ U D p)
    (hv : v ≠ .instr id) (hf : (p.func f).erased = false)
    (hi : p.functionOf? i = some f) (hD : i ∉ D) :
    .instr id ∉ ((p.replaceUses (.instr id) v).instr i).operands := by
  rw [operands_replaceUses (h.fits hi hf hD).operands.flat (h.sound.live_of_functionOf hi)]
  intro hmem
  obtain ⟨w, -, hw⟩ := List.mem_map.mp hmem
  split at hw
  · exact hv hw
  · rename_i hne
    exact hne hw

theorem Fitting.updateInstr {g : Instr → Instr} (h : Fitting γ U D p)
    (hg : ∀ i, (g i).parent = i.parent ∧ (g i).erased = i.erased)
    (hshape : (g (p.instr id)).isTerminator = (p.instr id).isTerminator ∧
      (g (p.instr id)).isPhi = (p.instr id).isPhi)
    (hfits : ∀ f, Fits γ U p f (p.instr id) → Fits γ U p f (g (p.instr id))) :
    Fitting γ U D (p.updateInstr id g) := by
  have hs := sameFrame_updateInstr hg p id
  have hinstr : ∀ i, (p.updateInstr id g).instr i = p.instr i ∨
      i = id ∧ (p.updateInstr id g).instr i = g (p.instr id) := by
    intro i
    rw [instr_updateInstr]
    split
    · rename_i heq
      exact .inr ⟨heq.1.symm, by rw [heq.1]⟩
    · exact .inl rfl
  refine h.rework hs (fun _ => rfl) (fun i => ?_) fun f i hf hi hD => ?_
  · rcases hinstr i with he | ⟨rfl, he⟩ <;> rw [he]
    · exact ⟨rfl, rfl⟩
    · exact hshape
  · have hold := h.fits hi hf hD
    have hnew : Fits γ U p f ((p.updateInstr id g).instr i) := by
      rcases hinstr i with he | ⟨rfl, he⟩ <;> rw [he]
      · exact hold
      · exact hfits f hold
    exact hnew.samePlaces (hs.places fun _ => rfl) (hs.evolves h.sound).1

theorem Fitting.setInstrName (h : Fitting γ U D p) (id : InstrId) (name : Option String) :
    Fitting γ U D (p.setInstrName id name) :=
  h.updateInstr (fun _ => ⟨rfl, rfl⟩) ⟨rfl, rfl⟩ fun _ hfits => ⟨hfits.incoming, hfits.operands⟩

theorem Fitting.takeName (h : Fitting γ U D p) (source target : InstrId) :
    Fitting γ U D (p.takeName source target) :=
  (h.setInstrName source none).setInstrName target _

theorem Fitting.setKind {marker : TailMarker} (h : Fitting γ U D p)
    (hcall : ∃ m, (p.instr id).kind = .call m) (hset : p.setKind id (.call marker) = .ok q) :
    Fitting γ U D q := by
  obtain ⟨u, -, hset⟩ := except_bind_ok.mp hset
  cases hset
  obtain ⟨m, hm⟩ := hcall
  refine h.updateInstr (fun _ => ⟨rfl, rfl⟩) ?_ fun f hfits => ⟨nofun, ?_⟩
  · unfold Instr.isTerminator Instr.isPhi
    rw [hm]
    exact ⟨rfl, rfl⟩
  · rcases hfits.operands with hall | ⟨_, args, k, -, hargs⟩
    · exact .inl hall
    · exact .inr ⟨marker, args, k, rfl, hargs⟩

theorem Fits.forgetEntry {i : Instr} (h : Fits γ U p f i) (source : BlockId) :
    Fits γ U p f (forgetEntry i source) := by
  cases hphi : i.isPhi with
  | false =>
    rw [forgetEntry_plain hphi]
    exact h
  | true =>
    obtain ⟨blocks, hkind⟩ := Instr.isPhi_iff.mp hphi
    have hall : ∀ v ∈ i.operands, OperandFits γ U p f v := by
      rcases h.operands with hall | ⟨m, -, -, hcall, -⟩
      · exact hall
      · rw [hkind] at hcall
        cases hcall
    obtain ⟨-, -, -, hsub⟩ := forgetEntry_same i source
    refine ⟨fun incoming hincoming => ?_, .inl fun v hv => hall v (hsub hv)⟩
    unfold Program.forgetEntry at hincoming ⊢
    rw [hkind] at hincoming ⊢
    cases hincoming
    rw [List.length_map, List.length_map]
    refine ⟨rfl, fun c hc => (h.incoming blocks hkind).2 c ?_⟩
    obtain ⟨⟨v, b⟩, hv, rfl⟩ := List.mem_map.mp hc
    exact (List.of_mem_zip (List.mem_of_mem_filter hv)).2

theorem isTerminator_forgetEntry (i : Instr) (source : BlockId) :
    (forgetEntry i source).isTerminator = i.isTerminator := by
  cases hphi : i.isPhi with
  | false => rw [forgetEntry_plain hphi]
  | true =>
    obtain ⟨-, -, hsame, -⟩ := forgetEntry_same i source
    obtain ⟨blocks, hkind⟩ := Instr.isPhi_iff.mp hphi
    obtain ⟨incoming, hincoming⟩ := Instr.isPhi_iff.mp (hsame.trans hphi)
    unfold Instr.isTerminator
    rw [hkind, hincoming]
    rfl

theorem Fitting.forgetEntry (h : Fitting γ U D p) (id : InstrId) (source : BlockId) :
    Fitting γ U D (p.updateInstr id (forgetEntry · source)) := by
  obtain ⟨-, -, hphi, -⟩ := forgetEntry_same (p.instr id) source
  exact h.updateInstr (g := (Program.forgetEntry · source))
    (fun i => ⟨(forgetEntry_same i source).1, (forgetEntry_same i source).2.1⟩)
    ⟨isTerminator_forgetEntry .., hphi⟩ fun f hfits => hfits.forgetEntry source

/-! ## 5. Instructions that go -/

theorem Fitting.disuse (h : Fitting γ U D p) (hid : id.index < p.instrs.size)
    (hunused : ∀ f i, (p.func f).erased = false → p.functionOf? i = some f → i ∉ D →
      .instr id ∉ (p.instr i).operands) : Fitting γ (id :: U) D p := by
  refine ⟨h.sound, h.ages, fun i hi => ?_, fun f hf b hb => ⟨(h.bodies f hf b hb).order, ?_⟩⟩
  · rcases hi with hi | hi
    · rcases List.mem_cons.mp hi with rfl | hi
      · exact hid
      · exact h.bounded i (.inl hi)
    · exact h.bounded i (.inr hi)
  · intro i hi
    have hnot := hunused f i hf (h.functionOf hb hi) (mem_standing.mp hi).2
    refine ((h.bodies f hf b hb).fits i hi).same (fun c hc => hc) (fun v hv hfits => ?_)
      fun g n _ hg => hg
    refine ⟨hfits.flat, hfits.problem, hfits.inRange, fun j hj hmem => ?_, hfits.under⟩
    rcases List.mem_cons.mp hmem with rfl | hmem
    · exact hnot (hj ▸ hv)
    · exact hfits.unused j hj hmem

theorem Ordered.filter {ids : List InstrId} (h : p.Ordered ids) {keep : InstrId → Bool}
    (hkeep : ∀ i ∈ ids, (p.instr i).isTerminator = true → keep i = true) :
    p.Ordered (ids.filter keep) := by
  obtain ⟨last, hlast, hterm⟩ := h.ends
  have hfilter : ∀ i, ids.getLast? = some i → (p.instr i).isTerminator = true →
      (ids.filter keep).getLast? = some i := by
    intro i hi ht
    obtain ⟨front, rfl⟩ := List.getLast?_eq_some_iff.mp hi
    rw [List.filter_append, List.filter_cons_of_pos (hkeep i (by simp) ht)]
    simp
  refine ⟨⟨last, hfilter last hlast hterm, hterm⟩, fun i hi ht => ?_, h.phisFirst.filter keep⟩
  exact hfilter i (h.last i (List.mem_of_mem_filter hi) ht) ht

theorem standing_cons (p : Program) (D : List InstrId) (id : InstrId) (b : BlockId) :
    p.standing (id :: D) b = (p.standing D b).filter (· ≠ id) := by
  unfold standing
  rw [List.filter_filter]
  exact List.filter_congr fun i _ => by simp

theorem Ordered.ignore (h : p.Ordered (p.standing D b))
    (hterm : (p.instr id).isTerminator = false) : p.Ordered (p.standing (id :: D) b) := by
  rw [standing_cons]
  refine h.filter fun i _ ht => ?_
  rw [decide_eq_true_eq]
  rintro rfl
  rw [hterm] at ht
  cases ht

theorem Fitting.ignore (h : Fitting γ U D p) (hid : id.index < p.instrs.size)
    (hterm : (p.instr id).isTerminator = false) : Fitting γ U (id :: D) p := by
  refine ⟨h.sound, h.ages, fun i hi => ?_, fun f hf b hb => ?_⟩
  · rcases hi with hi | hi
    · exact h.bounded i (.inl hi)
    · rcases List.mem_cons.mp hi with rfl | hi
      · exact hid
      · exact h.bounded i (.inr hi)
  · have hbody := h.bodies f hf b hb
    refine ⟨hbody.order.ignore hterm, fun i hi => ?_⟩
    rw [standing_cons] at hi
    exact hbody.fits i (List.mem_of_mem_filter hi)

theorem standing_dropInstr (hD : id ∈ D) (b : BlockId) :
    (p.dropInstr id).standing D b = p.standing D b ∧
      ∀ i ∈ p.standing D b, (p.dropInstr id).instr i = p.instr i := by
  constructor
  · unfold standing
    rw [block_dropInstr]
    split
    · rw [List.filter_filter]
      refine List.filter_congr fun i _ => ?_
      by_cases hi : i = id
      · simp [hi, hD]
      · simp [hi]
    · rfl
  · intro i hi
    refine instr_dropInstr_ne fun he => ?_
    exact (mem_standing.mp hi).2 (he ▸ hD)

theorem Fitting.dropInstr (h : Fitting γ U D p) (hU : id ∈ U) (hD : id ∈ D)
    (hlive : (p.instr id).erased = false) : Fitting γ U D (p.dropInstr id) := by
  have hq := (evolves_dropInstr hlive h.sound).1
  have hsizes := sizes_dropInstr p id
  have hparent : ∀ b, ((p.dropInstr id).block b).parent = (p.block b).parent := by
    intro b
    rw [block_dropInstr]
    split <;> rfl
  have hfunctionOf : ∀ i, i ≠ id → (p.dropInstr id).functionOf? i = p.functionOf? i := by
    intro i hi
    unfold functionOf?
    rw [instr_dropInstr_ne hi.symm]
    cases (p.instr i).parent with
    | none => rfl
    | some b => exact hparent b
  refine ⟨hq, fun f n hn => hsizes.1 ▸ h.ages f n hn, fun i hi => hsizes.2.2 ▸ h.bounded i hi, ?_⟩
  intro f hf b hb
  rw [func_dropInstr] at hf hb
  have hbody := h.bodies f hf b hb
  obtain ⟨hstanding, hsame⟩ := standing_dropInstr (p := p) hD b
  constructor
  · rw [hstanding]
    exact hbody.order.congr fun i hi => by rw [hsame i hi]; exact ⟨rfl, rfl⟩
  · intro i hi
    rw [hstanding] at hi
    rw [hsame i hi]
    refine (hbody.fits i hi).same (fun c hc => (hparent c).trans hc) (fun v _ hv => ?_)
      fun g n _ hg => ?_
    · refine hv.transport hq (fun j _ hj hjU => ⟨?_, hjU⟩) (fun c hc => (hparent c).trans hc)
        (fun g _ hg => by rwa [func_dropInstr]) (by rw [func_dropInstr]) fun _ hg => hg
      exact (hfunctionOf j fun he => hjU (he ▸ hU)).trans hj
    · obtain ⟨h₁, h₂, h₃, h₄, h₅⟩ := hg
      exact ⟨by rwa [func_dropInstr], h₂, h₃, by rwa [func_dropInstr], by rwa [func_dropInstr]⟩

theorem standing_forget (hp : p.Sound) (hD : D' ⊆ D)
    (hgone : ∀ i ∈ D, i ∉ D' → (p.instr i).erased = true) (b : BlockId) :
    p.standing D' b = p.standing D b := by
  refine List.filter_congr fun i hi => ?_
  rw [decide_eq_decide, not_iff_not]
  refine ⟨fun hmem => hD hmem, fun hmem => ?_⟩
  by_contra hnot
  have hlive := hp.instr_live hi
  rw [hgone i hmem hnot] at hlive
  cases hlive

theorem Fitting.forget (h : Fitting γ U D p) (hU : U' ⊆ U) (hD : D' ⊆ D)
    (hgone : ∀ i ∈ D, i ∉ D' → (p.instr i).erased = true) : Fitting γ U' D' p := by
  refine ⟨h.sound, h.ages, fun i hi => h.bounded i (hi.imp (@hU i) (@hD i)), fun f hf b hb => ?_⟩
  have hbody := h.bodies f hf b hb
  have hstanding := standing_forget h.sound hD hgone b
  refine ⟨hstanding ▸ hbody.order, fun i hi => ?_⟩
  rw [hstanding] at hi
  refine (hbody.fits i hi).same (fun c hc => hc) (fun v _ hv => ?_) fun g n _ hg => hg
  exact ⟨hv.flat, hv.problem, hv.inRange, fun j hj hmem => hv.unused j hj (hU hmem), hv.under⟩

/-! ## 6. New instructions -/

theorem insertIdx_idxOf? {α : Type} [BEq α] [LawfulBEq α] {l : List α} {a : α}
    (h : l.idxOf? a = some n) (x : α) :
    ∃ front back, l = front ++ a :: back ∧ l.insertIdx n x = front ++ x :: a :: back ∧
      l.insertIdx (n + 1) x = front ++ a :: x :: back := by
  induction l generalizing n with
  | nil => cases h
  | cons b l ih =>
    rw [List.idxOf?_cons] at h
    split at h
    · rename_i hb
      cases h
      obtain rfl := beq_iff_eq.mp hb
      exact ⟨[], l, rfl, rfl, rfl⟩
    · obtain ⟨m, hm, rfl⟩ := Option.map_eq_some_iff.mp h
      obtain ⟨front, back, hl, hbefore, hafter⟩ := ih hm
      exact ⟨b :: front, back, by rw [hl]; rfl, by rw [List.insertIdx_succ_cons, hbefore]; rfl,
        by rw [List.insertIdx_succ_cons, hafter]; rfl⟩

/-- A program with a drafted instruction that stands in no block yet. -/
def drafted (p : Program) (d : Edit.Draft) : Program :=
  (p.createInstr d.kind d.ty d.operands).1.setInstrName ⟨p.instrs.size⟩ d.name

theorem evolves_drafted (p : Program) (d : Edit.Draft) : p.Evolves (p.drafted d) :=
  (evolves_createInstr p d.kind d.ty d.operands).trans
    (sameFrame_setInstrName _ ⟨p.instrs.size⟩ d.name).evolves

theorem instr_drafted_new (p : Program) (d : Edit.Draft) :
    (p.drafted d).instr ⟨p.instrs.size⟩ = ⟨d.kind, d.ty, d.operands, d.name, none, false⟩ := by
  have hlt : (InstrId.mk p.instrs.size).index <
      (p.createInstr d.kind d.ty d.operands).1.instrs.size := by
    simp [createInstr]
  rw [drafted, Program.setInstrName, instr_updateInstr_self hlt, createInstr, instr_push,
    if_pos rfl]

theorem instr_drafted_ne (d : Edit.Draft) (hi : i ≠ ⟨p.instrs.size⟩) :
    (p.drafted d).instr i = p.instr i := by
  rw [drafted, Program.setInstrName, instr_updateInstr_ne hi.symm, createInstr, instr_push, if_neg]
  exact fun he => hi (by cases i; exact congrArg InstrId.mk he)

theorem insert_beside_eq {place : Place} {offset : Nat}
    (hplace : place = .before anchor ∧ offset = 0 ∨ place = .after anchor ∧ offset = 1)
    (h : Edit.insert place d p = .ok new q) :
    new = ⟨p.instrs.size⟩ ∧ (p.drafted d).insertBeside anchor ⟨p.instrs.size⟩ offset = .ok q := by
  unfold Edit.insert Edit.insertMoving at h
  rcases hplace with ⟨rfl, rfl⟩ | ⟨rfl, rfl⟩
  all_goals
    obtain ⟨⟨id, moved⟩, p₁, hmoving, hpure⟩ := bind_ok h
    obtain ⟨_, p₂, hmake, hmoving⟩ := bind_ok hmoving
    obtain ⟨_, p₃, hname, hmoving⟩ := bind_ok hmoving
    obtain ⟨_, p₄, hattempt, hmoving⟩ := bind_ok hmoving
    obtain ⟨hpair, rfl⟩ := pure_ok hmoving
    obtain ⟨rfl, rfl⟩ := pure_ok hpure
    cases hmake
    cases hpair
    rw [modify_ok hname] at hattempt
    exact ⟨rfl, attempt_ok.mp hattempt⟩

/-- A drafted instruction has been put right before another one in a block. -/
structure Inserted (p q : Program) (d : Edit.Draft) (anchor new : InstrId) (b : BlockId)
    (front back : List InstrId) : Prop where
  evolves : p.Evolves q
  fresh : new = ⟨p.instrs.size⟩
  functions : q.functions.size = p.functions.size
  instrs : q.instrs.size = p.instrs.size + 1
  func : ∀ f, q.func f = p.func f
  parent : ∀ c, (q.block c).parent = (p.block c).parent
  anchored : (p.instr anchor).parent = some b
  before : (p.block b).instrs = front ++ anchor :: back
  after : (q.block b).instrs = front ++ new :: anchor :: back
  others : ∀ c, c ≠ b → (q.block c).instrs = (p.block c).instrs
  made : ∃ name, q.instr new = ⟨d.kind, d.ty, d.operands, name, some b, false⟩
  instr : ∀ i, i ≠ new → q.instr i = p.instr i

theorem insert_before_ok (h : Edit.insert (.before anchor) d p = .ok new q) :
    ∃ b front back, Inserted p q d anchor new b front back := by
  obtain ⟨rfl, hinsert⟩ := insert_beside_eq (.inl ⟨rfl, rfl⟩) h
  obtain ⟨-, b, n, hpos, rfl⟩ := insertBeside_ok.mp hinsert
  obtain ⟨-, hparent, hidx⟩ := positionOf_ok.mp hpos
  have hne : anchor ≠ ⟨p.instrs.size⟩ := by
    rintro rfl
    rw [instr_drafted_new] at hparent
    cases hparent
  rw [instr_drafted_ne d hne] at hparent
  obtain ⟨front, back, hbefore, hafter, -⟩ := insertIdx_idxOf? hidx ⟨p.instrs.size⟩
  have hmem : anchor ∈ ((p.drafted d).block b).instrs := by
    rw [hbefore]
    exact List.mem_append_right _ List.mem_cons_self
  have hlt : (InstrId.mk p.instrs.size).index < ((p.drafted d).updateBlock b fun bb =>
      { bb with instrs := bb.instrs.insertIdx (n + 0) ⟨p.instrs.size⟩ }).instrs.size := by
    simp [drafted, createInstr, Program.setInstrName, updateInstr, updateBlock]
  have hblock := block_updateBlock_self (block_lt_of_mem hmem)
    fun bb => { bb with instrs := bb.instrs.insertIdx (n + 0) ⟨p.instrs.size⟩ }
  have hblocks : ∀ c, c ≠ b → ((p.drafted d).attach b ⟨p.instrs.size⟩
      (·.insertIdx (n + 0) ⟨p.instrs.size⟩)).block c = p.block c :=
    fun c hc => block_updateBlock_ne hc.symm _
  refine ⟨b, front, back,
    (evolves_drafted p d).trans (evolves_insertBeside (Nat.zero_le 1) hinsert),
    rfl, rfl, ?_, fun _ => rfl, fun c => ?_, hparent, hbefore, ?_, fun c hc => ?_, ⟨d.name, ?_⟩,
    fun i hi => ?_⟩
  · simp [drafted, createInstr, Program.setInstrName, Program.attach, updateInstr, updateBlock]
  · by_cases hc : c = b
    · subst hc
      rw [Program.attach, block_updateInstr, hblock]
      rfl
    · rw [hblocks c hc]
  · rw [Program.attach, block_updateInstr, hblock]
    exact hafter
  · rw [hblocks c hc]
  · rw [Program.attach, instr_updateInstr_self hlt, instr_updateBlock, instr_drafted_new]
  · rw [Program.attach, instr_updateInstr_ne hi.symm, instr_updateBlock, instr_drafted_ne d hi]

section

variable {d : Edit.Draft} {anchor new : InstrId} {b : BlockId} {front back : List InstrId}

theorem Ordered.insert (h : p.Ordered (front ++ anchor :: back))
    (hold : ∀ i ∈ front ++ anchor :: back, q.instr i = p.instr i)
    (hterm : (q.instr new).isTerminator = false) (hphi : (q.instr new).isPhi = false)
    (hanchor : (p.instr anchor).isPhi = false) : q.Ordered (front ++ new :: anchor :: back) := by
  have hlast : (front ++ new :: anchor :: back).getLast? = (front ++ anchor :: back).getLast? := by
    simp
  have hq : q.Ordered (front ++ anchor :: back) := h.congr fun i hi => by
    rw [hold i hi]
    exact ⟨rfl, rfl⟩
  obtain ⟨hfront, hback, hacross⟩ := List.pairwise_append.mp hq.phisFirst
  -- no phi comes behind the anchor, so none comes behind the new instruction
  have hplain : ∀ j ∈ anchor :: back, (q.instr j).isPhi = false := by
    have hanchor' : (q.instr anchor).isPhi = false := by
      rw [hold anchor (List.mem_append_right _ List.mem_cons_self)]
      exact hanchor
    intro j hj
    rcases List.mem_cons.mp hj with rfl | hj
    · exact hanchor'
    · refine Bool.eq_false_iff.mpr fun hjphi => ?_
      exact Bool.eq_false_iff.mp hanchor' ((List.pairwise_cons.mp hback).1 j hj hjphi)
  refine ⟨hlast ▸ hq.ends, fun i hi ht => ?_, ?_⟩
  · rw [hlast]
    rcases List.mem_append.mp hi with hi | hi
    · exact hq.last i (List.mem_append_left _ hi) ht
    · rcases List.mem_cons.mp hi with rfl | hi
      · rw [hterm] at ht
        cases ht
      · exact hq.last i (List.mem_append_right _ hi) ht
  · refine List.pairwise_append.mpr ⟨hfront, List.pairwise_cons.mpr ⟨?_, hback⟩, ?_⟩
    · intro j hj hjphi
      rw [hplain j hj] at hjphi
      cases hjphi
    · intro i hi j hj hjphi
      rcases List.mem_cons.mp hj with rfl | hj
      · rw [hphi] at hjphi
        cases hjphi
      · exact hacross i hi j hj hjphi

theorem Ordered.swapLast (h : p.Ordered (front ++ [anchor]))
    (hold : ∀ i ∈ front, q.instr i = p.instr i) (hnot : anchor ∉ front)
    (hterm : (q.instr new).isTerminator = true) (hphi : (q.instr new).isPhi = false) :
    q.Ordered (front ++ [new]) := by
  obtain ⟨hfront, -, -⟩ := List.pairwise_append.mp h.phisFirst
  refine ⟨⟨new, by simp, hterm⟩, fun i hi ht => ?_, List.pairwise_append.mpr ⟨?_, ?_, ?_⟩⟩
  · rcases List.mem_append.mp hi with hi | hi
    · rw [hold i hi] at ht
      have hlast := h.last i (List.mem_append_left _ hi) ht
      rw [List.getLast?_concat, Option.some_inj] at hlast
      exact absurd (hlast ▸ hi) hnot
    · rw [List.mem_singleton.mp hi]
      simp
  · refine hfront.imp_of_mem fun hi hj hij => ?_
    rwa [hold _ hi, hold _ hj]
  · exact List.pairwise_singleton _ _
  · intro i _ j hj hjphi
    rw [List.mem_singleton.mp hj, hphi] at hjphi
    cases hjphi

namespace Inserted

variable (hins : Inserted p q d anchor new b front back)

include hins

theorem functionOf {i : InstrId} (hi : i ≠ new) : q.functionOf? i = p.functionOf? i := by
  unfold functionOf?
  rw [hins.instr i hi]
  cases (p.instr i).parent with
  | none => rfl
  | some c => exact hins.parent c

theorem ne_new (hi : i.index < p.instrs.size) : i ≠ new := by
  rintro rfl
  rw [hins.fresh] at hi
  exact Nat.lt_irrefl _ hi

theorem fits (hp : p.Sound) {i : Instr} (h : Fits γ U p f i) : Fits γ U q f i := by
  refine h.same (fun c hc => (hins.parent c).trans hc) (fun v _ hv => ?_) fun g n _ hg => ?_
  · refine hv.transport (hins.evolves hp).1 (fun j _ hj hU => ⟨?_, hU⟩)
      (fun c hc => (hins.parent c).trans hc) (fun g _ hg => by rwa [hins.func]) (by rw [hins.func])
      fun _ hg => hg
    have hlt := instr_lt_of_live (hp.live_of_functionOf hj)
    exact (hins.functionOf (hins.ne_new hlt)).trans hj
  · obtain ⟨h₁, h₂, h₃, h₄, h₅⟩ := hg
    rw [← hins.func g] at h₁ h₄ h₅
    exact ⟨h₁, h₂, h₃, h₄, h₅⟩

theorem fits_new (hp : p.Sound) (h : Fits γ U p f d.instr) : Fits γ U q f (q.instr new) := by
  obtain ⟨name, hmade⟩ := hins.made
  rw [hmade]
  have hfits := hins.fits hp h
  exact ⟨hfits.incoming, hfits.operands⟩

theorem instr_of_standing (hp : p.Sound) (hi : i ∈ p.standing D c) :
    q.instr i = p.instr i :=
  hins.instr i (hins.ne_new (instr_lt_of_live (hp.instr_live (mem_standing.mp hi).1)))

theorem standing_of_ne (hcb : c ≠ b)
    (hD : ∀ i ∈ (p.block c).instrs, i ∈ D' ↔ i ∈ D) : q.standing D' c = p.standing D c := by
  unfold standing
  rw [hins.others c hcb]
  exact List.filter_congr fun i hi => by simp [hD i hi]

theorem ordered_of_ne (hp : p.Sound) (hcb : c ≠ b)
    (hD : ∀ i ∈ (p.block c).instrs, i ∈ D' ↔ i ∈ D) (h : p.Ordered (p.standing D c)) :
    q.Ordered (q.standing D' c) := by
  rw [hins.standing_of_ne hcb hD]
  exact h.congr fun i hi => by rw [hins.instr_of_standing hp hi]; exact ⟨rfl, rfl⟩

theorem bodyFits_of_ne (h : Fitting γ U D p) (hg : (p.func g).erased = false)
    (hc : c ∈ (p.func g).blocks) (hcb : c ≠ b)
    (hD : ∀ i ∈ (p.block c).instrs, i ∈ D' ↔ i ∈ D) : BodyFits γ U D' q g c := by
  have hbody := h.bodies g hg c hc
  refine ⟨hins.ordered_of_ne h.sound hcb hD hbody.order, fun i hi => ?_⟩
  rw [hins.standing_of_ne hcb hD] at hi
  rw [hins.instr_of_standing h.sound hi]
  exact hins.fits h.sound (hbody.fits i hi)

theorem functionOf_new (hb : (p.block b).parent = some f) : q.functionOf? new = some f := by
  obtain ⟨name, hmade⟩ := hins.made
  unfold functionOf?
  rw [hmade]
  exact (hins.parent b).trans hb

theorem bounded (h : Fitting γ U D p) (hi : i ∈ U ∨ i ∈ D) :
    i.index < q.instrs.size := by
  rw [hins.instrs]
  exact Nat.lt_succ_of_lt (h.bounded i hi)

theorem not_mem_of_bounded (hD : ∀ i ∈ D, i.index < p.instrs.size) : new ∉ D := by
  intro hmem
  have hlt := hD new hmem
  rw [hins.fresh] at hlt
  exact Nat.lt_irrefl _ hlt

theorem not_mem_new (h : Fitting γ U D p) : new ∉ U ∧ new ∉ D :=
  ⟨hins.not_mem_of_bounded fun i hi => h.bounded i (.inl hi),
    hins.not_mem_of_bounded fun i hi => h.bounded i (.inr hi)⟩

theorem standing_before (hanchor : anchor ∉ D) :
    p.standing D b = front.filter (· ∉ D) ++ anchor :: back.filter (· ∉ D) := by
  unfold standing
  rw [hins.before, List.filter_append, List.filter_cons_of_pos (by simpa using hanchor)]

theorem standing_after (hnew : new ∉ D) (hanchor : anchor ∉ D) :
    q.standing D b = front.filter (· ∉ D) ++ new :: anchor :: back.filter (· ∉ D) := by
  unfold standing
  rw [hins.after, List.filter_append, List.filter_cons_of_pos (by simpa using hnew),
    List.filter_cons_of_pos (by simpa using hanchor)]

theorem standing_swap (hp : p.Sound) (hnew : new ∉ D) (hanchor : anchor ∉ D)
    (hlast : (p.standing D b).getLast? = some anchor) : ∃ ids, anchor ∉ ids ∧
      p.standing D b = ids ++ [anchor] ∧ q.standing (anchor :: D) b = ids ++ [new] := by
  have hbefore := hins.standing_before hanchor
  have hnodup := (hp.nodup_instrs b).filter (· ∉ D)
  change (p.standing D b).Nodup at hnodup
  rw [hbefore] at hlast hnodup
  obtain ⟨-, hback, hacross⟩ := List.nodup_append.mp hnodup
  have hnil : back.filter (· ∉ D) = [] := by
    cases hcons : back.filter (· ∉ D) with
    | nil => rfl
    | cons x xs =>
      rw [hcons] at hlast hback
      have hmem : anchor ∈ x :: xs := List.mem_of_getLast? (by simpa using hlast)
      exact absurd hmem (List.nodup_cons.mp hback).1
  refine ⟨front.filter (· ∉ D), fun hm => hacross anchor hm anchor List.mem_cons_self rfl, ?_, ?_⟩
  · rw [hbefore, hnil]
  · have hne : new ≠ anchor := (hins.ne_new (instr_lt_of_parent hins.anchored)).symm
    have hfront : (front.filter (· ∉ D)).filter (· ≠ anchor) = front.filter (· ∉ D) := by
      refine List.filter_eq_self.mpr fun i hi => ?_
      rw [decide_eq_true_eq]
      rintro rfl
      exact hacross i hi i List.mem_cons_self rfl
    rw [standing_cons, hins.standing_after hnew hanchor, hnil, List.filter_append, hfront,
      List.filter_cons_of_pos (by simpa using hne), List.filter_cons_of_neg (by simp)]
    rfl

theorem ordered (hp : p.Sound) (hnew : new ∉ D) (hanchor : anchor ∉ D)
    (hphi : (p.instr anchor).isPhi = false) (hnewTerm : d.instr.isTerminator = false)
    (hnewPhi : d.instr.isPhi = false) (h : p.Ordered (p.standing D b)) :
    q.Ordered (q.standing D b) := by
  have hbefore := hins.standing_before hanchor
  obtain ⟨name, hmade⟩ := hins.made
  rw [hins.standing_after hnew hanchor]
  refine (hbefore ▸ h).insert (fun i hi => ?_) ?_ ?_ hphi
  · exact hins.instr_of_standing hp (hbefore ▸ hi)
  · rw [hmade]
    exact hnewTerm
  · rw [hmade]
    exact hnewPhi

theorem ordered_terminator (hp : p.Sound) (hnew : new ∉ D) (hanchor : anchor ∉ D)
    (hterm : (p.instr anchor).isTerminator = true) (hnewTerm : d.instr.isTerminator = true)
    (hnewPhi : d.instr.isPhi = false) (h : p.Ordered (p.standing D b)) :
    q.Ordered (q.standing (anchor :: D) b) := by
  have hmem := mem_standing.mpr ⟨hp.mem_instrs.mpr hins.anchored, hanchor⟩
  obtain ⟨ids, hnot, hbefore, hafter⟩ :=
    hins.standing_swap hp hnew hanchor (h.last anchor hmem hterm)
  obtain ⟨name, hmade⟩ := hins.made
  rw [hafter]
  refine (hbefore ▸ h).swapLast (fun i hi => ?_) hnot ?_ ?_
  · exact hins.instr_of_standing hp (hbefore ▸ List.mem_append_left _ hi)
  · rw [hmade]
    exact hnewTerm
  · rw [hmade]
    exact hnewPhi

theorem mem_cons_anchor (hp : p.Sound) (hcb : c ≠ b) :
    ∀ i ∈ (p.block c).instrs, i ∈ anchor :: D ↔ i ∈ D := by
  intro i hi
  have hne : i ≠ anchor := by
    rintro rfl
    have hparent := hp.mem_instrs.mp hi
    rw [hins.anchored, Option.some_inj] at hparent
    exact hcb hparent.symm
  simp [hne]

theorem fitting (h : Fitting γ U D p) (hb : (p.block b).parent = some f) (hanchor : anchor ∉ D)
    (hphi : (p.instr anchor).isPhi = false) (hnewTerm : d.instr.isTerminator = false)
    (hnewPhi : d.instr.isPhi = false) (hfits : Fits γ U p f d.instr) : Fitting γ U D q := by
  have hnewD := (hins.not_mem_new h).2
  refine ⟨(hins.evolves h.sound).1, fun g n hn => hins.functions ▸ h.ages g n hn,
    fun i hi => hins.bounded h hi, fun g hg c hc => ?_⟩
  rw [hins.func] at hg hc
  by_cases hcb : c = b
  · subst hcb
    obtain rfl : g = f := Option.some.inj ((h.sound.mem_blocks.mp hc).symm.trans hb)
    have hbody := h.bodies g hg c hc
    refine ⟨hins.ordered h.sound hnewD hanchor hphi hnewTerm hnewPhi hbody.order, fun i hi => ?_⟩
    by_cases hnew : i = new
    · rw [hnew]
      exact hins.fits_new h.sound hfits
    · have hold : i ∈ p.standing D c := by
        rw [hins.standing_after hnewD hanchor] at hi
        rw [hins.standing_before hanchor]
        simp only [List.mem_append, List.mem_cons] at hi ⊢
        exact hi.imp_right fun hi => hi.resolve_left hnew
      rw [hins.instr_of_standing h.sound hold]
      exact hins.fits h.sound (hbody.fits i hold)
  · exact hins.bodyFits_of_ne h hg hc hcb fun _ _ => Iff.rfl

theorem fitting_terminator (h : Fitting γ U D p) (hb : (p.block b).parent = some f)
    (hanchor : anchor ∉ D) (hterm : (p.instr anchor).isTerminator = true)
    (hnewTerm : d.instr.isTerminator = true) (hnewPhi : d.instr.isPhi = false)
    (hfits : Fits γ U p f d.instr) : Fitting γ U (anchor :: D) q := by
  have hnewD := (hins.not_mem_new h).2
  have hlt : anchor.index < q.instrs.size := by
    rw [hins.instrs]
    exact Nat.lt_succ_of_lt (instr_lt_of_parent hins.anchored)
  refine ⟨(hins.evolves h.sound).1, fun g n hn => hins.functions ▸ h.ages g n hn, fun i hi => ?_,
    fun g hg c hc => ?_⟩
  · rcases hi with hi | hi
    · exact hins.bounded h (.inl hi)
    · rcases List.mem_cons.mp hi with rfl | hi
      · exact hlt
      · exact hins.bounded h (.inr hi)
  rw [hins.func] at hg hc
  by_cases hcb : c = b
  · subst hcb
    obtain rfl : g = f := Option.some.inj ((h.sound.mem_blocks.mp hc).symm.trans hb)
    have hbody := h.bodies g hg c hc
    have hmem := mem_standing.mpr ⟨h.sound.mem_instrs.mpr hins.anchored, hanchor⟩
    refine ⟨hins.ordered_terminator h.sound hnewD hanchor hterm hnewTerm hnewPhi hbody.order,
      fun i hi => ?_⟩
    obtain ⟨ids, -, hbefore, hafter⟩ :=
      hins.standing_swap h.sound hnewD hanchor (hbody.order.last anchor hmem hterm)
    rw [hafter] at hi
    rcases List.mem_append.mp hi with hi | hi
    · have hold : i ∈ p.standing D c := hbefore ▸ List.mem_append_left _ hi
      rw [hins.instr_of_standing h.sound hold]
      exact hins.fits h.sound (hbody.fits i hold)
    · rw [List.mem_singleton.mp hi]
      exact hins.fits_new h.sound hfits
  · exact hins.bodyFits_of_ne h hg hc hcb (hins.mem_cons_anchor h.sound hcb)

end Inserted

end

/-! ## 7. Verified programs -/

theorem CalleeFits.problem (h : CalleeFits γ p f g n) :
    p.operandProblem? f (.func g) = none := by
  unfold operandProblem?
  rw [if_neg (by simp [h.live])]

theorem OperandsFit.problem {i : Instr} (h : OperandsFit γ U p f i) :
    ∀ v ∈ i.operands, p.operandProblem? f v = none := by
  rcases h with h | ⟨marker, args, g, -, hoperands, hargs, hcallee⟩
  · exact fun v hv => (h v hv).problem
  · intro v hv
    rw [hoperands] at hv
    rcases List.mem_append.mp hv with hv | hv
    · exact (hargs v hv).problem
    · rw [List.mem_singleton.mp hv]
      exact hcallee.problem

/-- A program that fits with nothing left out is verified. -/
theorem Fitting.verified (h : Fitting γ [] [] p) : p.Verified := by
  intro f hf b hb
  have hp := h.sound
  have hbody := h.bodies f hf b hb
  have hall : p.standing [] b = (p.block b).instrs := List.filter_eq_self.mpr fun _ _ => rfl
  obtain ⟨horder, hfits⟩ := hbody
  rw [hall] at horder hfits
  refine ⟨horder.ends, fun i hi => ?_, horder.phisFirst⟩
  refine ⟨hp.mem_instrs.mp hi, horder.last i hi, fun blocks hkind => ?_,
    (hfits i hi).operands.problem⟩
  obtain ⟨hlength, hparents⟩ := (hfits i hi).incoming blocks hkind
  refine ⟨hlength, fun c hc => ⟨?_, hparents c hc⟩⟩
  exact hp.block_live_of_listed (hp.mem_blocks.mpr (hparents c hc))

/-- The instruction does nothing with a function but call it, with as many arguments as it takes. -/
def CallsOnly (p : Program) (i : Instr) (k : FuncId) : Prop :=
  ∃ marker args, i.kind = .call marker ∧ i.operands = args ++ [.func k] ∧
    (∀ v ∈ args, mentions (.func k) v = false) ∧ (p.func k).params.length = args.length ∧
    (p.func k).varArg = false

/-- An order of the functions of a program. Functions of `inPlace` are called from higher ones
    only; the others may call each other, as long as nothing but plain calls refers to them. -/
structure Layered (p : Program) (inPlace : List FuncId) (height : FuncId → Nat) : Prop where
  known : ∀ k ∈ inPlace, k.index < p.functions.size
  descends : ∀ f i k, (p.func f).erased = false → p.functionOf? i = some f →
    (p.instr i).uses (.func k) = true →
    k ∈ inPlace ∧ height k < height f ∨
      k ∉ inPlace ∧ height k ≤ height f ∧ p.CallsOnly (p.instr i) k

/-- Operands of instructions in live functions have no part of a function inside, and refer to
    parameters that there are. -/
structure Regular (p : Program) : Prop where
  flat : ∀ f i, (p.func f).erased = false → p.functionOf? i = some f →
    ∀ v ∈ (p.instr i).operands, v.Flat
  inRange : ∀ f i g k, (p.func f).erased = false → p.functionOf? i = some f →
    .arg g k ∈ (p.instr i).operands → k < (p.func g).params.length

/-- The layers at the start: all functions of `inPlace` are of one age. -/
def startLayers (inPlace : List FuncId) (height : FuncId → Nat) : Layers where
  height := height
  age k := if k ∈ inPlace then some 0 else none

section

variable {inPlace : List FuncId} {height : FuncId → Nat}

theorem operandFits_start (hv : p.Verified) (hr : p.Regular)
    (hf : (p.func f).erased = false) (hp : p.Sound) (hi : p.functionOf? i = some f)
    (hmem : v ∈ (p.instr i).operands)
    (hunder : ∀ k, mentions (.func k) v = true → k ∈ inPlace ∧ height k < height f) :
    OperandFits (startLayers inPlace height) [] p f v where
  flat := hr.flat f i hf hi v hmem
  problem := by
    obtain ⟨b, hb, hparent⟩ := Option.bind_eq_some_iff.mp hi
    exact ((hv f hf b (hp.mem_blocks.mpr hparent)).instrs i (hp.mem_instrs.mpr hb)).operands v hmem
  inRange g k heq := hr.inRange f i g k hf hi (heq ▸ hmem)
  unused _ _ := List.not_mem_nil
  under k hk := ⟨0, if_pos (hunder k hk).1, .inl (hunder k hk).2⟩

/-- A verified program fits to begin with. -/
theorem Layered.fitting (hl : p.Layered inPlace height) (hp : p.Sound) (hv : p.Verified)
    (hr : p.Regular) : Fitting (startLayers inPlace height) [] [] p := by
  refine ⟨hp, fun f n hn => ?_, nofun, fun f hf b hb => ?_⟩
  · unfold startLayers at hn
    dsimp only at hn
    split at hn
    · rename_i hmem
      cases hn
      exact ⟨hl.known f hmem, Nat.zero_le _⟩
    · cases hn
  have hfits := hv f hf b hb
  have hall : p.standing [] b = (p.block b).instrs := List.filter_eq_self.mpr fun _ _ => rfl
  constructor
  · rw [hall]
    exact ⟨hfits.ends, fun i hi ht => (hfits.instrs i hi).last ht, hfits.phisFirst⟩
  · intro i hi
    have hmem := (mem_standing.mp hi).1
    have hin : p.functionOf? i = some f := hp.functionOf_of_mem hb hmem
    refine ⟨fun blocks hkind => ?_, ?_⟩
    · obtain ⟨hlength, hparents⟩ := (hfits.instrs i hmem).incoming blocks hkind
      exact ⟨hlength, fun c hc => (hparents c hc).2⟩
    by_cases hplain : ∃ k, (p.instr i).uses (.func k) = true ∧ k ∉ inPlace
    · obtain ⟨k, hk, hout⟩ := hplain
      obtain ⟨-, hheight, marker, args, hkind, hargs, hfree, hparams, hvar⟩ :=
        (hl.descends f i k hf hin hk).resolve_left fun h => hout h.1
      have hcallee := (hfits.instrs i hmem).operands (.func k)
        (hargs ▸ List.mem_append_right _ (List.mem_singleton_self _))
      refine .inr ⟨marker, args, k, hkind, hargs, fun v hvmem => ?_,
        ?_, if_neg hout, hheight, hparams,
        hvar⟩
      · have hop : v ∈ (p.instr i).operands := hargs ▸ List.mem_append_left _ hvmem
        refine operandFits_start hv hr hf hp hin hop fun g hg => ?_
        -- what the arguments mention is not what is called, so it is of the layers below
        refine (hl.descends f i g hf hin (Instr.uses_iff.mpr ⟨v, hop, hg⟩)).resolve_right ?_
        rintro ⟨-, -, marker', args', -, hargs', hfree', -⟩
        obtain ⟨rfl, heq⟩ := List.append_inj' (hargs.symm.trans hargs') rfl
        rw [hfree' v hvmem] at hg
        cases hg
      · unfold operandProblem? at hcallee
        simpa using hcallee
    · refine .inl fun v hvmem => operandFits_start hv hr hf hp hin hvmem fun g hg => ?_
      refine (hl.descends f i g hf hin (Instr.uses_iff.mpr ⟨v, hvmem, hg⟩)).resolve_right ?_
      exact fun h => hplain ⟨g, Instr.uses_iff.mpr ⟨v, hvmem, hg⟩, h.1⟩

end

end Program

end QirProfile
