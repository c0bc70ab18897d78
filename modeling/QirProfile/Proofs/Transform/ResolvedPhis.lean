import QirProfile.Proofs.Cleanup
import QirProfile.Proofs.Program.Exchanges
import QirProfile.Proofs.Program.References
import QirProfile.Proofs.Transform.DeadCodeVerified

/-!
# Phis with a dead edge give way along their active edges

A phi of two inputs with one active block gives way to the value on the active edge. That value may be
such a phi again, so the uses of a phi end where the active edges lead. The phis are replaced one
after the other, and what comes later in the list is read through those that are gone; the list may
have them in any order.
-/

namespace QirProfile.Transform

open Program
open Relation (ReflTransGen TransGen)
open List (Forall₂)

variable {a : ActiveCode} {p q : Program} {phi : InstrId} {u v w : Value}

/-! ## 1. Active edges -/

/-- A phi of two inputs comes from one active block, and the value comes from there. -/
inductive ActiveInput (a : ActiveCode) (i : Instr) : Value → Prop
  | first {b c : BlockId} {v w : Value} : i.kind = .phi [b, c] → i.operands = [v, w] →
      b ∈ a.blocks → c ∉ a.blocks → ActiveInput a i v
  | second {b c : BlockId} {v w : Value} : i.kind = .phi [b, c] → i.operands = [v, w] →
      b ∉ a.blocks → c ∈ a.blocks → ActiveInput a i w

/-- A phi of a live function with one active input gives way to the value. -/
def Selects (p : Program) (a : ActiveCode) (phi : InstrId) (v : Value) : Prop :=
  (∃ f, (p.func f).erased = false ∧ phi ∈ p.instrsOf f) ∧ ActiveInput a (p.instr phi) v

/-- The phis that give way. -/
def Selected (p : Program) (a : ActiveCode) (phi : InstrId) : Prop :=
  ∃ v, Selects p a phi v

/-- The first value behind the selected phis, along their active edges. -/
inductive ResolvesTo (p : Program) (a : ActiveCode) : Value → Value → Prop
  | here {v : Value} : (∀ phi, v = .instr phi → ¬ Selected p a phi) → ResolvesTo p a v v
  | along {phi : InstrId} {v w : Value} : Selects p a phi v → ResolvesTo p a v w →
      ResolvesTo p a (.instr phi) w

theorem activeInput?_iff {i : Instr} : activeInput? a i = some v ↔ ActiveInput a i v := by
  constructor
  · intro h
    unfold activeInput? at h
    split at h
    · rename_i b c v₁ v₂ hkind hoperands
      split at h
      · rename_i hb hc
        cases h
        exact .first hkind hoperands (List.contains_iff_mem.mp hb) (by simpa using hc)
      · rename_i hb hc
        cases h
        exact .second hkind hoperands (by simpa using hb) (List.contains_iff_mem.mp hc)
      · cases h
    · cases h
  · intro h
    unfold activeInput?
    cases h with
    | first hkind hoperands hb hc => simp [hkind, hoperands, hb, hc]
    | second hkind hoperands hb hc => simp [hkind, hoperands, hb, hc]

theorem mem_settledPhis_iff : (phi, v) ∈ settledPhis p a ↔ Selects p a phi v := by
  rw [mem_settledPhis, activeInput?_iff, Selects]

theorem Selects.unique (hv : Selects p a phi v) (hw : Selects p a phi w) : v = w :=
  Option.some.inj ((activeInput?_iff.mpr hv.2).symm.trans (activeInput?_iff.mpr hw.2))

theorem ResolvesTo.unique (hv : ResolvesTo p a u v) (hw : ResolvesTo p a u w) : v = w := by
  induction hv with
  | here hout =>
    cases hw with
    | here _ => rfl
    | along hphi _ => exact absurd ⟨_, hphi⟩ (hout _ rfl)
  | along hphi _ ih =>
    cases hw with
    | here hout => exact absurd ⟨_, hphi⟩ (hout _ rfl)
    | along hphi' hrest => exact ih (hphi.unique hphi' ▸ hrest)

theorem Selects.mem (h : Selects p a phi v) (hp : p.Sound) :
    (p.instr phi).erased = false ∧ v ∈ (p.instr phi).operands := by
  obtain ⟨⟨f, -, hin⟩, hv⟩ := h
  exact ⟨hp.live_of_functionOf (hp.mem_instrsOf.mp hin),
    (activeInput?_some (activeInput?_iff.mpr hv)).2⟩

/-- One step along an active edge. -/
def AlongEdge (p : Program) (a : ActiveCode) (v w : Value) : Prop :=
  ∃ phi, v = .instr phi ∧ Selects p a phi w

theorem resolvesTo_of_steps (h : ReflTransGen (AlongEdge p a) v w)
    (hend : ∀ phi, w = .instr phi → ¬ Selected p a phi) : ResolvesTo p a v w := by
  induction h using ReflTransGen.head_induction_on with
  | refl => exact .here hend
  | head hstep _ ih =>
    obtain ⟨phi, rfl, hphi⟩ := hstep
    exact .along hphi ih

/-! ## 2. Phis give way one after the other -/

/-- What lists the selected phis with their values, each of them once. -/
structure Lists (p : Program) (a : ActiveCode) (phis : List (InstrId × Value)) : Prop where
  nodup : (phis.map (·.1)).Nodup
  mem : ∀ phi v, (phi, v) ∈ phis ↔ Selects p a phi v

/-- Nothing local stands inside a constant: not in a live instruction, and not in a global. -/
structure FlatConstants (p : Program) : Prop where
  operands : ∀ i, (p.instr i).erased = false → ∀ v ∈ (p.instr i).operands, v.Flat
  initializers : ∀ g v, (p.global g).initializer = some v → v.Flat

/-- What holds of `p` when the phis of `done` have given way in `p₀` to the values they stand
    with, and those of `rest` wait. -/
structure Giving (p₀ : Program) (a : ActiveCode) (done rest : List (InstrId × Value))
    (p : Program) : Prop where
  sound : p.Sound
  follows : ∀ x ∈ rest, Selects p₀ a x.1 x.2
  nodup : (done.map (·.1) ++ rest.map (·.1)).Nodup
  /-- The values of `done` are flat, lie behind their phis, and are none of these phis. -/
  flat : ∀ x ∈ done, x.2.Flat
  steps : ∀ x ∈ done, ReflTransGen (AlongEdge p₀ a) (.instr x.1) x.2
  leads : ∀ x ∈ done, ∀ i, x.2 = .instr i → TransGen (GivesWay p₀ a) x.1 i
  ends : ∀ v, ∀ x ∈ done, settle done v ≠ .instr x.1
  erased : ∀ i, (p.instr i).erased = true ↔ (p₀.instr i).erased = true ∨ i ∈ done.map (·.1)
  operands : ∀ i, (p.instr i).erased = false →
    (p.instr i).operands = (p₀.instr i).operands.map (settle done)
  initializers : ∀ g, (p.global g).initializer = (p₀.global g).initializer.map (settle done)
  kinds : ∀ i, (p.instr i).kind = (p₀.instr i).kind ∧ (p.instr i).ty = (p₀.instr i).ty
  func : ∀ f, p.func f = p₀.func f
  blocks : ∀ b, (p.block b).instrs = (p₀.block b).instrs.filter (· ∉ done.map (·.1))

theorem steps_settle {done : List (InstrId × Value)}
    (hdone : ∀ x ∈ done, ReflTransGen (AlongEdge p a) (.instr x.1) x.2) (v : Value) :
    ReflTransGen (AlongEdge p a) v (settle done v) := by
  unfold settle
  induction done generalizing v with
  | nil => exact .refl
  | cons x done ih =>
    refine ReflTransGen.trans ?_ (ih (fun y hy => hdone y (List.mem_cons_of_mem x hy)) _)
    dsimp only
    split
    · rename_i heq
      exact heq ▸ hdone x List.mem_cons_self
    · exact .refl

theorem takeName_run (v : Value) (phi : InstrId) (p : Program) : ∃ q,
    (v.toInstr?.forM fun target => (modify (·.takeName phi target) : Edit PUnit)) p = .ok ⟨⟩ q ∧
      p.SameFrame q ∧ (∀ i, ∃ n, q.instr i = { p.instr i with name := n }) ∧
      (∀ f, q.func f = p.func f) ∧ ∀ g, q.global g = p.global g := by
  cases v.toInstr? with
  | none => exact ⟨p, rfl, .refl p, fun i => ⟨_, rfl⟩, fun _ => rfl, fun _ => rfl⟩
  | some target =>
    exact ⟨_, rfl, sameFrame_takeName p phi target, instr_takeName p phi target, fun _ => rfl,
      fun _ => rfl⟩

/-- The program `q` is `p` without `phi`, whose uses refer to `v`. -/
structure GaveWay (p : Program) (phi : InstrId) (v : Value) (q : Program) : Prop where
  sound : q.Sound
  erased : ∀ i, (q.instr i).erased = true ↔ (p.instr i).erased = true ∨ i = phi
  operands : ∀ i, (q.instr i).erased = false →
    (q.instr i).operands = (p.instr i).operands.map (Value.substitute (.instr phi) v)
  initializers : ∀ g, (q.global g).initializer =
    (p.global g).initializer.map (Value.substitute (.instr phi) v)
  kinds : ∀ i, (q.instr i).kind = (p.instr i).kind ∧ (q.instr i).ty = (p.instr i).ty
  func : ∀ f, q.func f = p.func f
  blocks : ∀ b, (q.block b).instrs = (p.block b).instrs.filter (· != phi)

theorem gaveWay (hp : p.Sound) (hlive : (p.instr phi).erased = false) (v : Value) :
    ∃ p₁, (v.toInstr?.forM fun target => (modify (·.takeName phi target) : Edit PUnit)) p =
        .ok ⟨⟩ p₁ ∧
      ((p₁.replaceUses (.instr phi) v).instr phi).erased = false ∧
      GaveWay p phi v ((p₁.replaceUses (.instr phi) v).dropInstr phi) := by
  obtain ⟨p₁, hname, hframe, hinstr, hfunc, hglobal⟩ := takeName_run v phi p
  have hreplaced := sameFrame_replaceUses p₁ (.instr phi) v
  have hall := hframe.trans hreplaced
  have hsound := (hall.evolves hp).1
  have hlive₂ : ((p₁.replaceUses (.instr phi) v).instr phi).erased = false :=
    (hall.instr phi).2.trans hlive
  refine ⟨p₁, hname, hlive₂, ?_⟩
  refine
    { sound := (evolves_dropInstr hlive₂ hsound).1
      erased := fun i => ?_
      operands := fun i hi => ?_
      initializers := fun g => by rw [global_dropInstr, initializer_exchanged, hglobal]
      kinds := fun i => ?_
      func := fun f => by rw [func_dropInstr, func_replaceUses, hfunc]
      blocks := fun b => by rw [instrs_dropInstr hsound, (hall.block b).2.1] }
  · by_cases hi : phi = i
    · subst hi
      simp [instr_dropInstr_self (instr_lt_of_live hlive₂)]
    · rw [instr_dropInstr_ne hi, (hall.instr i).2]
      simp [Ne.symm hi]
  · have hne : phi ≠ i := by
      rintro rfl
      rw [instr_dropInstr_self (instr_lt_of_live hlive₂)] at hi
      cases hi
    rw [instr_dropInstr_ne hne] at hi ⊢
    obtain ⟨n, hn⟩ := hinstr i
    rw [operands_exchanged ((hreplaced.instr i).2.symm.trans hi), hn]
  · obtain ⟨n, hn⟩ := hinstr i
    obtain ⟨hkind, hty, -⟩ := same_dropInstr (p₁.replaceUses (.instr phi) v) phi i
    rw [hkind, hty, kind_replaceUses, instr_replaceUses, hn]
    refine ⟨rfl, ?_⟩
    split <;> rfl

theorem flat_settle {done : List (InstrId × Value)} (hdone : ∀ x ∈ done, x.2.Flat)
    (hv : v.Flat) : (settle done v).Flat :=
  settle_of_all hdone hv

theorem substitute_settle {done : List (InstrId × Value)} (hdone : ∀ x ∈ done, x.2.Flat)
    (hv : v.Flat) : Value.substitute (.instr phi) w (settle done v) =
      settle (done ++ [(phi, w)]) v := by
  rw [(flat_settle hdone hv).substitute rfl, settle_append]

section

variable {p₀ : Program} {done rest : List (InstrId × Value)}
  (hflat : FlatConstants p₀) (hacyclic : ∀ i, ¬ TransGen (GivesWay p₀ a) i i)

theorem Giving.not_mem (h : Giving p₀ a done ((phi, w) :: rest) p) : phi ∉ done.map (·.1) :=
  fun hmem => (List.nodup_append.mp h.nodup).2.2 phi hmem phi List.mem_cons_self rfl

theorem Giving.live (hp₀ : p₀.Sound) (h : Giving p₀ a done ((phi, w) :: rest) p) :
    (p.instr phi).erased = false := by
  refine Bool.eq_false_iff.mpr fun herased => ?_
  have hlive := ((h.follows (phi, w) List.mem_cons_self).mem hp₀).1
  rcases (h.erased phi).mp herased with hgone | hgone
  · rw [hlive] at hgone
    cases hgone
  · exact h.not_mem hgone

theorem Giving.onward (h : Giving p₀ a done ((phi, w) :: rest) p) :
    ReflTransGen (AlongEdge p₀ a) (.instr phi) (settle done w) :=
  .head ⟨phi, rfl, h.follows (phi, w) List.mem_cons_self⟩ (steps_settle h.steps w)

theorem Giving.leadsOn (h : Giving p₀ a done ((phi, w) :: rest) p) (i : InstrId)
    (hi : settle done w = .instr i) : TransGen (GivesWay p₀ a) phi i := by
  refine settle_leads h.leads (fun j hj => .single ?_) i hi
  rw [GivesWay, ← hj]
  exact mem_settledPhis_iff.mpr (h.follows (phi, w) List.mem_cons_self)

include hacyclic

theorem Giving.ends_append (h : Giving p₀ a done ((phi, w) :: rest) p) (v : Value) :
    ∀ x ∈ done ++ [(phi, settle done w)],
      settle (done ++ [(phi, settle done w)]) v ≠ .instr x.1 := by
  have hself : settle done w ≠ .instr phi := fun heq => hacyclic phi (h.leadsOn phi heq)
  intro x hx
  rw [settle_append]
  rcases List.mem_append.mp hx with hx | hx
  · split
    · exact h.ends w x hx
    · exact h.ends v x hx
  · rw [List.mem_singleton.mp hx]
    split
    · exact hself
    · assumption

include hflat

theorem Giving.step (hp₀ : p₀.Sound) (h : Giving p₀ a done ((phi, w) :: rest) p) :
    ∃ p₁, ((settle done w).toInstr?.forM fun target =>
        (modify (·.takeName phi target) : Edit PUnit)) p = .ok ⟨⟩ p₁ ∧
      ((p₁.replaceUses (.instr phi) (settle done w)).instr phi).erased = false ∧
      Giving p₀ a (done ++ [(phi, settle done w)]) rest
        ((p₁.replaceUses (.instr phi) (settle done w)).dropInstr phi) := by
  have hends := h.ends_append hacyclic
  have honward := h.onward
  have hleads := h.leadsOn
  obtain ⟨hphilive, hoperand⟩ := (h.follows (phi, w) List.mem_cons_self).mem hp₀
  have hvflat : (settle done w).Flat :=
    flat_settle h.flat (hflat.operands phi hphilive w hoperand)
  have hsubstitute : ∀ {u : Value}, u.Flat → Value.substitute (.instr phi) (settle done w)
      (settle done u) = settle (done ++ [(phi, settle done w)]) u := substitute_settle h.flat
  generalize settle done w = v at *
  obtain ⟨p₁, hname, hlive, hgone⟩ := gaveWay h.sound (h.live hp₀) v
  refine ⟨p₁, hname, hlive, ?_⟩
  generalize (p₁.replaceUses (.instr phi) v).dropInstr phi = q at hgone
  refine
    { sound := hgone.sound
      follows := fun x hx => h.follows x (List.mem_cons_of_mem _ hx)
      nodup := ?_
      flat := fun x hx => ?_
      steps := fun x hx => ?_
      leads := fun x hx => ?_
      ends := hends
      erased := fun i => ?_
      operands := fun i hi => ?_
      initializers := fun g => ?_
      kinds := fun i => ?_
      func := fun f => (hgone.func f).trans (h.func f)
      blocks := fun b => ?_ }
  · have hnodup := h.nodup
    rw [List.map_cons, List.append_cons] at hnodup
    rw [List.map_append]
    exact hnodup
  · rcases List.mem_append.mp hx with hx | hx
    · exact h.flat x hx
    · exact List.mem_singleton.mp hx ▸ hvflat
  · rcases List.mem_append.mp hx with hx | hx
    · exact h.steps x hx
    · exact List.mem_singleton.mp hx ▸ honward
  · rcases List.mem_append.mp hx with hx | hx
    · exact h.leads x hx
    · exact List.mem_singleton.mp hx ▸ hleads
  · rw [hgone.erased, h.erased, List.map_append, List.mem_append, ← or_assoc, List.map_singleton,
      List.mem_singleton]
  · have hbefore : (p.instr i).erased = false :=
      Bool.eq_false_iff.mpr fun h => Bool.eq_false_iff.mp hi ((hgone.erased i).mpr (.inl h))
    have hstart : (p₀.instr i).erased = false :=
      Bool.eq_false_iff.mpr fun h₀ => Bool.eq_false_iff.mp hbefore ((h.erased i).mpr (.inl h₀))
    rw [hgone.operands i hi, h.operands i hbefore, List.map_map]
    exact List.map_congr_left fun u hu => hsubstitute (hflat.operands i hstart u hu)
  · rw [hgone.initializers, h.initializers]
    cases hinit : (p₀.global g).initializer with
    | none => rfl
    | some u => exact congrArg some (hsubstitute (hflat.initializers g u hinit))
  · rw [(hgone.kinds i).1, (hgone.kinds i).2]
    exact h.kinds i
  · rw [hgone.blocks, h.blocks, List.filter_filter]
    refine List.filter_congr fun i _ => ?_
    rw [Bool.eq_iff_iff, List.map_append, List.map_singleton]
    simp only [Bool.and_eq_true, bne_iff_ne, ne_eq, decide_eq_true_eq, List.mem_append,
      List.mem_singleton, not_or, and_comm]

end

/-- What a program is when its selected phis have given way. -/
structure PhisResolved (p : Program) (a : ActiveCode) (q : Program) : Prop where
  /-- The selected phis go, out of their blocks, and nothing else does. -/
  erased : ∀ i, (q.instr i).erased = true ↔ (p.instr i).erased = true ∨ Selected p a i
  blocks : ∀ b, (q.block b).instrs.Sublist (p.block b).instrs ∧
    ∀ i, i ∈ (q.block b).instrs ↔ i ∈ (p.block b).instrs ∧ ¬ Selected p a i
  /-- An operand is what lies behind the selected phis; what is no selected phi is kept. -/
  operands : ∀ i, (q.instr i).erased = false →
    Forall₂ (ResolvesTo p a) (p.instr i).operands (q.instr i).operands
  initializers : ∀ g,
    Option.Rel (ResolvesTo p a) (p.global g).initializer (q.global g).initializer
  kinds : ∀ i, (q.instr i).kind = (p.instr i).kind ∧ (q.instr i).ty = (p.instr i).ty
  func : ∀ f, q.func f = p.func f

theorem ResolvesTo.ends (h : ResolvesTo p a u v) : ∀ phi, v = .instr phi → ¬ Selected p a phi := by
  induction h with
  | here hout => exact hout
  | along _ _ ih => exact ih

theorem ResolvesTo.origin (h : ResolvesTo p a u v) :
    v = u ∨ ∃ phi w, Selects p a phi w ∧ v = w := by
  induction h with
  | here _ => exact .inl rfl
  | along hphi _ ih =>
    rcases ih with rfl | hselected
    · exact .inr ⟨_, _, hphi, rfl⟩
    · exact .inr hselected

section

variable {p₀ : Program} {done rest phis : List (InstrId × Value)}
  (hp₀ : p₀.Sound) (hflat : FlatConstants p₀)
  (hacyclic : ∀ i, ¬ TransGen (GivesWay p₀ a) i i)

theorem Giving.resolved (h : Giving p₀ a done [] p) (hdone : ∀ phi, phi ∈ done.map (·.1) ↔
    Selected p₀ a phi) : PhisResolved p₀ a p := by
  have hends : ∀ v, ResolvesTo p₀ a v (settle done v) := by
    refine fun v => resolvesTo_of_steps (steps_settle h.steps v) fun phi hphi hselected => ?_
    obtain ⟨x, hx, rfl⟩ := List.mem_map.mp ((hdone phi).mpr hselected)
    exact h.ends v x hx hphi
  refine ⟨fun i => by rw [h.erased, hdone], fun b => ?_, fun i hi => ?_, fun g => ?_, h.kinds,
    h.func⟩
  · rw [h.blocks]
    exact ⟨List.filter_sublist, fun i => by rw [List.mem_filter, decide_eq_true_eq, hdone]⟩
  · rw [h.operands i hi, List.forall₂_map_right_iff, List.forall₂_same]
    exact fun v _ => hends v
  · rw [h.initializers]
    cases (p₀.global g).initializer with
    | none => exact .none
    | some v => exact .some (hends v)

include hp₀ hflat hacyclic

theorem Giving.run (h : Giving p₀ a done rest p) (hall : ∀ phi, phi ∈ done.map (·.1) ++ rest.map (·.1)
    ↔ Selected p₀ a phi) : ∃ q, replacePhis done rest p = .ok () q ∧ PhisResolved p₀ a q := by
  induction rest generalizing done p with
  | nil =>
    refine ⟨p, rfl, h.resolved fun phi => ?_⟩
    rw [← hall, List.map_nil, List.append_nil]
  | cons x rest ih =>
    obtain ⟨phi, w⟩ := x
    obtain ⟨p₁, hname, hlive, hnext⟩ := h.step hflat hacyclic hp₀
    obtain ⟨q, hrun, hresolved⟩ := ih hnext fun i => by
      rw [← hall, List.map_append, List.map_cons, List.append_assoc]
      rfl
    refine ⟨q, ?_, hresolved⟩
    have herase : Edit.attempt (·.eraseInstr phi)
        (p₁.replaceUses (.instr phi) (settle done w)) = .ok ()
          ((p₁.replaceUses (.instr phi) (settle done w)).dropInstr phi) :=
      attempt_ok.mpr (eraseInstr_ok.mpr ⟨hlive, rfl⟩)
    have hreplace : (modify (·.replaceUses (.instr phi) (settle done w)) : Edit PUnit) p₁ =
        .ok ⟨⟩ (p₁.replaceUses (.instr phi) (settle done w)) := rfl
    unfold replacePhis
    rw [bind_of_ok hname, bind_of_ok hreplace, bind_of_ok herase, hrun]

theorem replacePhis_resolves (hphis : Lists p₀ a phis) :
    ∃ q, replacePhis [] phis p₀ = .ok () q ∧ PhisResolved p₀ a q := by
  have hstart : Giving p₀ a [] phis p₀ :=
    { sound := hp₀
      follows := fun x hx => (hphis.mem x.1 x.2).mp hx
      nodup := hphis.nodup
      flat := nofun
      steps := nofun
      leads := nofun
      ends := nofun
      erased := fun i => by simp
      operands := fun i _ => (List.map_id _).symm
      initializers := fun g => Option.map_id.symm ▸ rfl
      kinds := fun _ => ⟨rfl, rfl⟩
      func := fun _ => rfl
      blocks := fun b => by simp }
  refine hstart.run hp₀ hflat hacyclic fun phi => ?_
  rw [List.map_nil, List.nil_append, List.mem_map]
  constructor
  · rintro ⟨x, hx, rfl⟩
    exact ⟨x.2, (hphis.mem x.1 x.2).mp hx⟩
  · rintro ⟨v, hv⟩
    exact ⟨(phi, v), (hphis.mem phi v).mpr hv, rfl⟩

end

/-! ## 3. Selected phis of a verified program -/

theorem lists_settledPhis (hp : p.Sound) : Lists p a (settledPhis p a) := by
  refine ⟨?_, fun _ _ => mem_settledPhis_iff⟩
  unfold settledPhis
  rw [List.map_filterMap]
  refine hp.nodup_attachedInstrs.filterMap fun i j k hi hj => ?_
  simp only [Option.mem_def, Option.map_map, Option.map_eq_some_iff, Function.comp_apply] at hi hj
  obtain ⟨_, -, rfl⟩ := hi
  obtain ⟨_, -, rfl⟩ := hj
  rfl

theorem PhisResolved.origin (h : PhisResolved p a q) {i : InstrId} (hi : (q.instr i).erased = false)
    (hv : v ∈ (q.instr i).operands) : ∃ u ∈ (p.instr i).operands, ResolvesTo p a u v := by
  obtain ⟨n, hn, rfl⟩ := List.getElem_of_mem hv
  have hlength := (h.operands i hi).length_eq
  exact ⟨_, List.getElem_mem (hlength ▸ hn), (h.operands i hi).get (hlength ▸ hn) hn⟩

theorem PhisResolved.live (h : PhisResolved p a q) {i : InstrId} (hi : (q.instr i).erased = false) :
    (p.instr i).erased = false := by
  refine Bool.eq_false_iff.mpr fun hgone => ?_
  rw [(h.erased i).mpr (.inl hgone)] at hi
  cases hi

theorem ResolvesTo.flat (h : ResolvesTo p a u v) (hp : p.Sound) (hflat : FlatConstants p)
    (hu : u.Flat) : v.Flat := by
  rcases h.origin with rfl | ⟨phi, w, hphi, rfl⟩
  · exact hu
  · exact hflat.operands phi (hphi.mem hp).1 v (hphi.mem hp).2

theorem PhisResolved.apart (h : PhisResolved p a q) (hp : p.Sound) (hflat : FlatConstants p)
    (hphi : Selected p a phi) :
    (∀ i, (q.instr i).erased = false → ¬ (q.instr i).Has (.instr phi)) ∧
      ∀ g, ¬ (q.global g).Has (.instr phi) := by
  have hvalue : ∀ {u v : Value}, u.Flat → ResolvesTo p a u v → ¬ (Value.instr phi).Occurs v :=
    fun hu huv hoccurs => huv.ends phi
      (huv.flat hp hflat hu (.instr phi) rfl (Value.mentions_iff_occurs.mpr hoccurs)).symm hphi
  refine ⟨fun i hi ⟨v, hv, hoccurs⟩ => ?_, fun g ⟨v, hv, hoccurs⟩ => ?_⟩
  · obtain ⟨u, hu, huv⟩ := h.origin hi hv
    exact hvalue (hflat.operands i (h.live hi) u hu) huv hoccurs
  · have hinit := h.initializers g
    rw [hv] at hinit
    cases hu : (p.global g).initializer with
    | none => rw [hu] at hinit; cases hinit
    | some u =>
      rw [hu] at hinit
      cases hinit with
      | some huv => exact hvalue (hflat.initializers g u hu) huv hoccurs

theorem live_of_occurs (hverify : p.verify = .ok ()) {f : FuncId} {i j : InstrId}
    (hf : (p.func f).erased = false) (hi : i ∈ p.instrsOf f) (hv : v ∈ (p.instr i).operands)
    (hflat : v.Flat) (hoccurs : (Value.instr j).Occurs v) : (p.instr j).erased = false := by
  have hmentions := Value.mentions_iff_occurs.mpr hoccurs
  obtain rfl := hflat (.instr j) rfl hmentions
  rcases verify_references hverify hf hi hv hmentions with husable | hburied
  · exact husable.1
  · cases hburied

theorem PhisResolved.live_of_has (h : PhisResolved p a q) (hp : p.Sound)
    (hverify : p.verify = .ok ())
    (hflat : FlatConstants p) {f : FuncId} {i j : InstrId} (hf : (q.func f).erased = false)
    (hi : i ∈ q.instrsOf f) (hilive : (q.instr i).erased = false)
    (hhas : (q.instr i).Has (.instr j)) : (q.instr j).erased = false := by
  have hunselected : ¬ Selected p a j := fun hj => (h.apart hp hflat hj).1 i hilive hhas
  have hbefore : i ∈ p.instrsOf f := by
    unfold instrsOf at hi ⊢
    rw [h.func] at hi
    exact List.mem_flatMap.mpr ((List.mem_flatMap.mp hi).imp fun b hb =>
      ⟨hb.1, (((h.blocks b).2 i).mp hb.2).1⟩)
  obtain ⟨v, hv, hoccurs⟩ := hhas
  obtain ⟨u, hu, huv⟩ := h.origin hilive hv
  have huflat := hflat.operands i (h.live hilive) u hu
  have hjlive : (p.instr j).erased = false := by
    rcases huv.origin with rfl | ⟨phi, w, hphi, rfl⟩
    · exact live_of_occurs hverify (h.func f ▸ hf) hbefore hu huflat hoccurs
    · obtain ⟨g, hg, hphig⟩ := hphi.1
      exact live_of_occurs hverify hg hphig (hphi.mem hp).2 (huv.flat hp hflat huflat) hoccurs
  refine Bool.eq_false_iff.mpr fun hgone => ?_
  rcases (h.erased j).mp hgone with hgone | hselected
  · rw [hjlive] at hgone
    cases hgone
  · exact hunselected hselected

/-- What the replacement of the selected phis leaves: everything is resolved, and what has gone is
    referred to nowhere. -/
structure Replaced (p : Program) (a : ActiveCode) (q : Program) : Prop where
  resolved : PhisResolved p a q
  apart : ∀ phi, Selected p a phi →
    (∀ i, (q.instr i).erased = false → ¬ (q.instr i).Has (.instr phi)) ∧
      ∀ g, ¬ (q.global g).Has (.instr phi)
  live : ∀ f, (q.func f).erased = false → ∀ i ∈ q.instrsOf f, (q.instr i).erased = false →
    ∀ j, (q.instr i).Has (.instr j) → (q.instr j).erased = false

/-- Whatever the order, the uses of a settled phi end at the first value that is no such phi. -/
theorem replaceSettledPhis_resolves (hp : p.Sound) (hverify : p.verify = .ok ())
    (hflat : FlatConstants p)
    (hacyclic : ∀ phi, ¬ TransGen (fun i j => Selects p a i (.instr j)) phi phi) :
    (∃ (phis : List InstrId) (q : Program), replaceSettledPhis a p = .ok phis.length q ∧
      phis.Nodup ∧ (∀ phi, phi ∈ phis ↔ Selected p a phi) ∧ Replaced p a q) ∧
    ∀ phis, Lists p a phis → ∃ q, replacePhis [] phis p = .ok () q ∧ Replaced p a q := by
  have hgives : ∀ phi, ¬ TransGen (GivesWay p a) phi phi := fun phi h =>
    hacyclic phi (TransGen.mono (fun _ _ => mem_settledPhis_iff.mp) _ _ h)
  have hany : ∀ phis, Lists p a phis → ∃ q, replacePhis [] phis p = .ok () q ∧ Replaced p a q := by
    intro phis hphis
    obtain ⟨q, hrun, h⟩ := replacePhis_resolves hp hflat hgives hphis
    exact ⟨q, hrun, h, fun _ hphi => h.apart hp hflat hphi, fun _ hf _ hi hlive _ hhas =>
      h.live_of_has hp hverify hflat hf hi hlive hhas⟩
  refine ⟨?_, hany⟩
  have hlists : Lists p a (settledPhis p a) := lists_settledPhis hp
  obtain ⟨q, hrun, hreplaced⟩ := hany _ hlists
  refine ⟨(settledPhis p a).map (·.1), q, ?_, hlists.nodup, fun phi => ?_, hreplaced⟩
  · unfold replaceSettledPhis
    rw [bind_of_ok (show (get : Edit Program) p = .ok p p from rfl), bind_of_ok hrun,
      List.length_map]
    rfl
  · constructor
    · intro hphi
      obtain ⟨x, hx, rfl⟩ := List.mem_map.mp hphi
      exact ⟨x.2, mem_settledPhis_iff.mp hx⟩
    · rintro ⟨v, hv⟩
      exact List.mem_map.mpr ⟨_, mem_settledPhis_iff.mpr hv, rfl⟩

theorem acyclic_of_rising
    (h : ∀ x ∈ settledPhis p a, ∀ j ∈ x.2.toInstr?.toList, x.1.index < j.index) (phi : InstrId) :
    ¬ TransGen (fun i j => Selects p a i (.instr j)) phi phi := by
  have hstep : ∀ {i j : InstrId}, Selects p a i (.instr j) → i.index < j.index := fun hj =>
    h _ (mem_settledPhis_iff.mpr hj) _ List.mem_cons_self
  have hrises : ∀ {i j : InstrId}, TransGen (fun i j => Selects p a i (.instr j)) i j →
      i.index < j.index := by
    intro i j hij
    induction hij with
    | single hj => exact hstep hj
    | tail _ hj ih => exact Nat.lt_trans ih (hstep hj)
  exact fun hcycle => Nat.lt_irrefl _ (hrises hcycle)

/-- A result that comes through two phis, the later of them listed first; a block that is never
    entered leads to both. -/
def chained : Program where
  name := "chained"
  functions := #[⟨"f", .int 64, [⟨some "x", .int 64⟩], false, none, none, [],
    [⟨0⟩, ⟨1⟩, ⟨2⟩, ⟨3⟩], false⟩]
  blocks := #[
    ⟨some "entry", some ⟨0⟩, [⟨0⟩], false⟩,
    ⟨some "outer", some ⟨0⟩, [⟨1⟩, ⟨2⟩], false⟩,
    ⟨some "inner", some ⟨0⟩, [⟨3⟩, ⟨4⟩], false⟩,
    ⟨some "dead", some ⟨0⟩, [⟨5⟩], false⟩]
  instrs := #[
    ⟨.br, .void, [.block ⟨2⟩], none, some ⟨0⟩, false⟩,
    ⟨.phi [⟨2⟩, ⟨3⟩], .int 64, [.instr ⟨3⟩, .int 64 0], some "r", some ⟨1⟩, false⟩,
    ⟨.ret, .void, [.instr ⟨1⟩], none, some ⟨1⟩, false⟩,
    ⟨.phi [⟨0⟩, ⟨3⟩], .int 64, [.arg ⟨0⟩ 0, .int 64 0], some "y", some ⟨2⟩, false⟩,
    ⟨.br, .void, [.block ⟨1⟩], none, some ⟨2⟩, false⟩,
    ⟨.br, .void, [.undef (.int 1), .block ⟨1⟩, .block ⟨2⟩], none, some ⟨3⟩, false⟩]

theorem flatConstants_chained : FlatConstants chained := by
  refine ⟨fun i hi v hv => ?_, fun g v hv => ?_⟩
  · have hcases : ∀ k < chained.instrs.size, ∀ v ∈ (chained.instr ⟨k⟩).operands,
        v.isLocal = true ∨ v = .int 64 0 ∨ v = .undef (.int 1) := by
      decide
    rcases hcases i.index (instr_lt_of_live hi) v hv with h | rfl | rfl
    · exact Value.flat_of_isLocal h
    · exact Value.flat_int 64 0
    · exact Value.flat_undef (.int 1)
  · cases hv

theorem replaceSettledPhis_resolves_chained : ∃ q : Program,
    replaceSettledPhis ⟨[⟨0⟩], [⟨0⟩, ⟨1⟩, ⟨2⟩]⟩ chained = .ok 2 q ∧
      Replaced chained ⟨[⟨0⟩], [⟨0⟩, ⟨1⟩, ⟨2⟩]⟩ q ∧ (q.instr ⟨2⟩).operands = [.arg ⟨0⟩ 0] := by
  obtain ⟨phis, q, hrun, -, -, hreplaced⟩ :=
    (replaceSettledPhis_resolves (p := chained) (a := ⟨[⟨0⟩], [⟨0⟩, ⟨1⟩, ⟨2⟩]⟩) (by decide +kernel)
      (by rfl) flatConstants_chained (acyclic_of_rising (by decide +kernel))).1
  obtain ⟨n, q', hsame, hn, hreads⟩ := exists_answer
    (r := replaceSettledPhis ⟨[⟨0⟩], [⟨0⟩, ⟨1⟩, ⟨2⟩]⟩ chained)
    (P := fun n q => n = 2 ∧ (q.instr ⟨2⟩).operands = [.arg ⟨0⟩ 0]) (by decide +kernel)
  rw [hsame] at hrun
  cases hrun
  exact ⟨q, hn ▸ hsame, hreplaced, hreads⟩

end QirProfile.Transform
