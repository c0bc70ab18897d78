import QirProfile.Proofs.ControlFlow
import QirProfile.Proofs.ExecutionPath
import QirProfile.Transform.Expand

/-!
# Programs stay verified when calls get copies

While an entry point is walked, its calls are turned to copies one after the other. Turned calls
stay in their blocks until their function has been walked, and the functions they called may be gone
by then. So between two steps a program only fits but for what is doomed (`Walking`).
-/

namespace QirProfile

namespace Program

variable {γ : Layers} {U X : List InstrId} {p q : Program} {f g : FuncId}

/-! ## 1. Calls -/

theorem operands_of_call {i : Instr} {marker : TailMarker} (hkind : i.kind = .call marker)
    (h : i.calledFunction? = some g) : i.operands = i.arguments ++ [.func g] := by
  obtain ⟨v, hv, hg⟩ := Option.bind_eq_some_iff.mp h
  cases v <;> cases hg
  rw [Instr.callee?, Instr.isCall, hkind] at hv
  obtain ⟨args, hargs⟩ := List.getLast?_eq_some_iff.mp hv
  rw [Instr.arguments, hkind]
  simp [hargs]

theorem Fits.callee {i : Instr} (h : Fits γ U p f i) (hg : i.calledFunction? = some g) :
    OperandFits γ U p f (.func g) ∨
      (∃ marker, i.kind = .call marker) ∧ (∀ v ∈ i.arguments, OperandFits γ U p f v) ∧
        CalleeFits γ p f g i.arguments.length := by
  rcases h.operands with hall | ⟨marker, args, k, hkind, hargs, hall, hk⟩
  · exact .inl (hall _ (Instr.mem_of_calledFunction? hg))
  · obtain ⟨rfl, heq⟩ := List.append_inj' ((operands_of_call hkind hg).symm.trans hargs) rfl
    cases heq
    exact .inr ⟨⟨marker, hkind⟩, hall, hk⟩

theorem OperandFits.live (h : OperandFits γ U p f (.func g)) : (p.func g).erased = false := by
  have hproblem := h.problem
  unfold operandProblem? at hproblem
  simpa using hproblem

theorem Fits.call {i : Instr} {marker : TailMarker} (h : Fits γ U p f i)
    (hkind : i.kind = .call marker) (hg : i.calledFunction? = some g) :
    (∀ v ∈ i.arguments, OperandFits γ U p f v) ∧ (p.func g).erased = false ∧ γ.Reach g f := by
  rcases h.callee hg with hfits | ⟨-, hargs, hcallee⟩
  · refine ⟨fun v hv => ?_, hfits.live, .inl (hfits.under g (Value.mentions_self _))⟩
    rcases h.operands with hall | ⟨marker', args, k, -, hargs, hall, -⟩
    · exact hall v (Replacing.mem_of_arguments hv)
    · obtain ⟨rfl, -⟩ := List.append_inj' ((operands_of_call hkind hg).symm.trans hargs) rfl
      exact hall v hv
  · exact ⟨hargs, hcallee.live, .inr ⟨hcallee.copied, hcallee.height⟩⟩

end Program

namespace Transform

open Program

variable {γ : Layers} {U X : List InstrId} {p q : Program} {f g : FuncId}

theorem expandable?_eq_some {i : Instr} {marker : TailMarker} :
    expandable? p i = some (marker, g) ↔ i.kind = .call marker ∧ i.calledFunction? = some g ∧
      (p.func g).isDeclaration = false ∧ (p.func g).varArg = false ∧
      (p.func g).params.length = i.arguments.length := by
  unfold expandable?
  split
  · rename_i m k hkind hcallee
    rw [hkind, hcallee]
    simp only [InstrKind.call.injEq, Option.some.injEq]
    split
    · rename_i hnot
      simp only [Bool.or_eq_true, bne_iff_ne] at hnot
      simp only [reduceCtorEq, false_iff]
      rintro ⟨-, rfl, h₁, h₂, h₃⟩
      rcases hnot with (h | h) | h
      · rw [h₁] at h; cases h
      · rw [h₂] at h; cases h
      · exact h h₃
    · rename_i hok
      simp only [Bool.or_eq_true, bne_iff_ne, not_or, Bool.not_eq_true, not_not] at hok
      simp only [Option.some.injEq, Prod.mk.injEq]
      constructor
      · rintro ⟨rfl, rfl⟩
        exact ⟨rfl, rfl, hok.1.1, hok.1.2, hok.2⟩
      · rintro ⟨rfl, rfl, -⟩
        exact ⟨rfl, rfl⟩
  · rename_i hnot
    simp only [reduceCtorEq, false_iff]
    rintro ⟨hkind, hcallee, -⟩
    exact hnot _ _ hkind hcallee

theorem constantArguments_int {args : List Value} :
    ∀ c ∈ constantArguments args, ∃ bits value, c.2 = .int bits value := by
  intro c hc
  obtain ⟨⟨v, k⟩, -, hv⟩ := List.mem_filterMap.mp hc
  dsimp only at hv
  split at hv
  · rename_i hint
    cases hv
    cases v <;> first | exact ⟨_, _, rfl⟩ | cases hint
  · cases hv

/-! ## 2. Turning a call -/

/-- The function `f` is about to call `c` instead of what its call `id` calls. -/
structure Turning (γ : Layers) (X : List InstrId) (p : Program) (f c : FuncId) (id : InstrId)
    (args : List Value) : Prop where
  fitting : Fitting γ X X p
  inside : p.functionOf? id = some f
  standing : id ∉ X
  call : ∃ marker, (p.instr id).kind = .call marker
  live : (p.func c).erased = false
  under : γ.Under c f
  args : ∀ v ∈ args, OperandFits γ X p f v

theorem turning_copy {id : InstrId} {c : FuncId} {marker : TailMarker} {m : Nat}
    (hp : Fitting γ X X p) (hf : (p.func f).erased = false) (hage : γ.age f = some m)
    (hid : p.functionOf? id = some f) (hX : id ∉ X) (hg : ∀ d ∈ X, p.functionOf? d ≠ some g)
    (hexp : expandable? p (p.instr id) = some (marker, g))
    (hcopy : p.specialise g (constantArguments (p.instr id).arguments) = .ok (q, c)) :
    c = ⟨p.functions.size⟩ ∧ Spares (fun _ => False) p q ∧
      Turning (γ.copied c g (p.functions.size + 1)) X q f c id
        ((p.instr id).arguments.filter fun a => a.toInt?.isNone) := by
  obtain ⟨hcall, hcallee, -⟩ := expandable?_eq_some.mp hexp
  obtain ⟨hargs, hlive, hreach⟩ := (hp.fits hid hf hX).call hcall hcallee
  obtain ⟨-, -, rfl, rfl⟩ := Program.specialise_ok.mp hcopy
  have hne : f ≠ ⟨p.functions.size⟩ := by
    rintro rfl
    exact Nat.lt_irrefl _ (func_lt_of_live hf)
  have hspares : Spares (fun _ => False) p
      (p.withCopy g (constantArguments (p.instr id).arguments)) := spares_withCopy hp.sound
  refine ⟨rfl, hspares, hp.withCopy hlive hg constantArguments_int,
    hspares.functionOf not_false hid, hX, ⟨marker, ?_⟩, ?_, ?_, fun v hv => ?_⟩
  · rw [instr_withCopy_old (instr_lt_of_live (hp.sound.live_of_functionOf hid))]
    exact hcall
  · rw [func_withCopy, if_pos rfl]
    exact hlive
  · exact hreach.copied hage (Nat.lt_succ_of_le (hp.ages f m hage).2) hne
  · exact (hargs v (List.mem_of_mem_filter hv)).withCopy hp hf

theorem Turning.turn {id call : InstrId} {c : FuncId} {args : List Value} {marker : TailMarker}
    {p₁ p₂ : Program} (h : Turning γ X p f c id args)
    (hinsert : Edit.insert (.before id) (p.draftCall c args none) p = .ok call p₁)
    (hkind : (p₁.takeName id call).setKind call (.call marker) = .ok p₂) :
    Fitting γ (id :: X) (id :: X) (p₂.replaceUses (.instr id) (.instr call)) ∧
      Spares (fun _ => False) p (p₂.replaceUses (.instr id) (.instr call)) ∧
      (p₂.replaceUses (.instr id) (.instr call)).functionOf? call = some f ∧
      ((p₂.replaceUses (.instr id) (.instr call)).instr call).calledFunction? = some c := by
  obtain ⟨m, hm⟩ := h.call
  have hp := h.fitting.sound
  have hlt := instr_lt_of_live (hp.live_of_functionOf h.inside)
  -- the new call is put before the old one
  obtain ⟨b, front, back, hins⟩ := insert_before_ok hinsert
  have hb := Replacing.parent_of_anchored hins h.inside
  have h₁ := hins.fitting h.fitting hb h.standing (by rw [Instr.isPhi, hm]) rfl rfl
    (Replacing.fits_draftCall h.args (.of_func h.live h.under))
  have hs₁ : Spares (fun _ => False) p p₁ := hins.spares hp
  obtain ⟨name, hmade⟩ := hins.made
  have hcallee : (p₁.instr call).calledFunction? = some c := by
    rw [hmade]
    simp [draftCall, Instr.calledFunction?, Instr.callee?, Instr.isCall, Value.toFunc?]
  -- it takes the name and the marker of the old one
  have h₂ := h₁.takeName id call
  have hs₂ : Spares (fun _ => False) p₁ (p₁.takeName id call) := spares_takeName h₁.sound id call
  have hmarker : ∃ m, ((p₁.takeName id call).instr call).kind = .call m := by
    obtain ⟨n, hn⟩ := instr_takeName p₁ id call call
    rw [hn, hmade]
    exact ⟨_, rfl⟩
  have h₃ := h₂.setKind hmarker hkind
  have hs₃ : Spares (fun _ => False) (p₁.takeName id call) p₂ :=
    spares_setKind h₂.sound hmarker hkind
  -- and all its uses
  have hs₁₃ := hs₁.trans (hs₂.trans hs₃)
  have hin := (hs₂.trans hs₃).functionOf not_false (hins.functionOf_new hb)
  have h₄ := h₃.turnUses (hs₁₃.functionOf not_false h.inside) hin (hins.not_mem_new h.fitting).1
  have hs₄ : Spares (fun _ => False) p₂ (p₂.replaceUses (.instr id) (.instr call)) :=
    spares_replaceUses h₃.sound id _
  have hs := hs₁₃.trans hs₄
  have hlt' := Nat.lt_of_lt_of_le hlt hs.buries.instrs
  have hne : Value.instr call ≠ .instr id := fun heq => hins.ne_new hlt (Value.instr.inj heq).symm
  refine ⟨(h₄.disuse hlt' fun f' i hf' hi hD => ?_).ignore hlt' ?_, hs,
    hs₄.functionOf not_false hin, ?_⟩
  · rw [((sameFrame_replaceUses p₂ _ _).places fun _ => rfl).functionOf] at hi
    exact h₃.not_mem_replaceUses hne hf' hi hD
  · rw [hs.terminator id hlt, Instr.isTerminator, hm]
    rfl
  · have hspared := hs₂.trans (hs₃.trans hs₄)
    exact hspared.callee call c (hspared.instr f call not_false (hins.functionOf_new hb)) hcallee

theorem dropSpent_fits {doomed : List InstrId} (hp : Fitting γ X X p) (hdoomed : doomed ⊆ X)
    (hspent : isSpent p doomed g = true) : Fitting γ X X (p.dropFunction g) := by
  refine hp.dropFunction fun h i hne _ hi hX => Bool.eq_false_iff.mpr fun huses => ?_
  obtain ⟨b, hb, -⟩ := Option.bind_eq_some_iff.mp hi
  have huser : User.instr i ∈ p.usersOf (.func g) :=
    mem_usersOf_instr.mpr ⟨hp.sound.live_of_functionOf hi, by rw [hb]; rfl, huses⟩
  have hall := List.all_eq_true.mp hspent _ huser
  simp only [Bool.or_eq_true, List.contains_iff_mem, beq_iff_eq] at hall
  rcases hall with hall | hall
  · exact hX (hdoomed hall)
  · exact hne (Option.some.inj (hi.symm.trans hall))

/-! ## 3. The state of a walk -/

variable {G : List InstrId} {t t' : PathState Nat} {s : TransformSettings}

theorem walkEdit_ok {α : Type} {e : Edit α} {a : α} :
    Walk.edit e t = .ok a t' ↔ ∃ q, e t.program = .ok a q ∧ t' = { t with program := q } := by
  unfold Walk.edit
  cases e t.program <;> simp [eq_comm]

theorem walkCompile_ok {α : Type} {e : Compile α} {a : α} :
    Walk.compile e t = .ok a t' ↔ ∃ q, e t.program = .ok a q ∧ t' = { t with program := q } := by
  unfold Walk.compile
  cases e t.program <;> simp [eq_comm]

theorem tryMake_ok {α : Type} {e : Program → Except ProgramError (Program × α)} {a : α} :
    Edit.tryMake e p = .ok a q ↔ e p = .ok (q, a) := by
  unfold Edit.tryMake
  split <;> rename_i h <;> simp [h, eq_comm, and_comm]

/-- The function `f` is being walked. What it has doomed so far stands in it, and what was doomed
    further out, `G`, stands in functions above. -/
structure Walking (γ : Layers) (G : List InstrId) (f : FuncId) (t : PathState Nat) : Prop where
  fitting : Fitting γ (G ++ t.doomed) (G ++ t.doomed) t.program
  live : (t.program.func f).erased = false
  aged : ∃ n, γ.age f = some n
  outer : ∀ d ∈ G, ∃ h, γ.Under f h ∧ t.program.functionOf? d = some h
  own : ∀ d ∈ t.doomed, t.program.functionOf? d = some f

/-- What an answer of the visitor says to follow lies under the function, or has no body. -/
def CalleeUnder (γ : Layers) (f : FuncId) (p : Program) (current : Option Value) : Prop :=
  ∀ i k, current = some (.instr i) → (p.instr i).calledFunction? = some k →
    γ.Under k f ∨ (p.func k).isDeclaration = true

namespace Walking

theorem lt (h : Walking γ G f t) : f.index < t.program.functions.size := func_lt_of_live h.live

theorem not_inside (h : Walking γ G f t) (hg : γ.Reach g f) :
    ∀ d ∈ G ++ t.doomed, t.program.functionOf? d ≠ some g := by
  intro d hd hin
  rcases List.mem_append.mp hd with hd | hd
  · obtain ⟨k, hunder, hk⟩ := h.outer d hd
    obtain rfl : g = k := Option.some.inj (hin.symm.trans hk)
    exact hunder.not_reach hg
  · obtain rfl : g = f := Option.some.inj (hin.symm.trans (h.own d hd))
    obtain ⟨n, hn⟩ := h.aged
    exact Layers.not_reach_self hn hg

theorem not_mem (h : Walking γ G f t) {id : InstrId} (hid : t.program.functionOf? id = some f)
    (hnot : id ∉ t.doomed) : id ∉ G ++ t.doomed := by
  intro hmem
  rcases List.mem_append.mp hmem with hmem | hmem
  · obtain ⟨k, hunder, hk⟩ := h.outer id hmem
    obtain rfl : f = k := Option.some.inj (hid.symm.trans hk)
    exact Layers.Under.irrefl f hunder
  · exact hnot hmem

theorem placed (h : Walking γ G f t) {id d : InstrId} (hid : t.program.functionOf? id = some f)
    (hd : d ∈ id :: (G ++ t.doomed)) : ∃ k, t.program.functionOf? d = some k := by
  rcases List.mem_cons.mp hd with rfl | hd
  · exact ⟨f, hid⟩
  rcases List.mem_append.mp hd with hd | hd
  · obtain ⟨k, -, hk⟩ := h.outer d hd
    exact ⟨k, hk⟩
  · exact ⟨f, h.own d hd⟩

theorem fits (h : Walking γ G f t) {id : InstrId} (hid : t.program.functionOf? id = some f)
    (hnot : id ∉ t.doomed) : Fits γ (G ++ t.doomed) t.program f (t.program.instr id) :=
  h.fitting.fits hid h.live (h.not_mem hid hnot)

theorem next {γ' : Layers} (h : Walking γ G f t)
    (hext : γ.Extends γ' t.program.functions.size)
    (hfits : Fitting γ' (G ++ t'.doomed) (G ++ t'.doomed) t'.program)
    (hspares : Spares (γ.Reach · f) t.program t'.program)
    (hown : ∀ d ∈ t'.doomed, t.program.functionOf? d = some f) : Walking γ' G f t' := by
  obtain ⟨n, hn⟩ := h.aged
  have hself := Layers.not_reach_self hn
  refine ⟨hfits, hspares.func f hself h.live, ⟨n, ?_⟩, fun d hd => ?_, fun d hd => ?_⟩
  · rw [(hext f h.lt).2]
    exact hn
  · obtain ⟨k, hunder, hk⟩ := h.outer d hd
    obtain ⟨b, -, hb⟩ := Option.bind_eq_some_iff.mp hk
    have hlt := func_lt_of_mem (h.fitting.sound.mem_blocks.mpr hb)
    exact ⟨k, (hext.under h.lt hlt).mpr hunder, hspares.functionOf hunder.not_reach hk⟩
  · exact hspares.functionOf hself (hown d hd)

end Walking

/-! ## 4. The visitor -/

/-- What a step of a walk through a function leads to. -/
structure Onward (γ γ' : Layers) (G : List InstrId) (f : FuncId) (t t' : PathState Nat) :
    Prop where
  layers : γ.Extends γ' t.program.functions.size
  walking : Walking γ' G f t'
  spares : Spares (γ.Reach · f) t.program t'.program

theorem Walking.onward (h : Walking γ G f t) : Onward γ γ G f t t :=
  ⟨.refl γ _, h, .refl h.fitting.sound⟩

theorem Onward.trans {γ₁ γ₂ γ₃ : Layers} {t₁ t₂ t₃ : PathState Nat} (hw : Walking γ₁ G f t₁)
    (h₁ : Onward γ₁ γ₂ G f t₁ t₂) (h₂ : Onward γ₂ γ₃ G f t₂ t₃) :
    Onward γ₁ γ₃ G f t₁ t₃ where
  layers := h₁.layers.trans h₂.layers h₁.spares.buries.functions
  walking := h₂.walking
  spares := h₁.spares.trans_old h₂.spares hw.fitting.sound h₁.walking.fitting.sound
    fun _ hlt => (h₁.layers.reach hlt hw.lt).mp

theorem not_expandable {i : Instr} {k : FuncId} (h : Fits γ U p f i)
    (hnone : expandable? p i = none) (hk : i.calledFunction? = some k) :
    γ.Under k f ∨ (p.func k).isDeclaration = true := by
  rcases h.callee hk with hfits | ⟨⟨marker, hkind⟩, -, hcallee⟩
  · exact .inl (hfits.under k (Value.mentions_self _))
  · by_contra hnot
    rw [not_or, Bool.not_eq_true] at hnot
    rw [expandable?_eq_some.mpr ⟨hkind, hk, hnot.2, hcallee.fixed, hcallee.params⟩] at hnone
    cases hnone

theorem specialiseCall_cases {id : InstrId} {current : Option Value}
    (h : specialiseCall s (.instr id) t = .ok current t') :
    expandable? t.program (t.program.instr id) = none ∧ current = some (.instr id) ∧ t' = t ∨
    ∃ marker g c call p₁ p₂ p₃ p₄ q n,
      expandable? t.program (t.program.instr id) = some (marker, g) ∧
      t.program.specialise g (constantArguments (t.program.instr id).arguments) = .ok (p₁, c) ∧
      Edit.insert (.before id) (p₁.draftCall c
        ((t.program.instr id).arguments.filter fun a => a.toInt?.isNone) none) p₁ = .ok call p₂ ∧
      (p₂.takeName id call).setKind call (.call marker) = .ok p₃ ∧
      foldControlFlow (Replacing.controlFlowRules s.assumeNoExcept) c
        (p₃.replaceUses (.instr id) (.instr call)) = .ok n p₄ ∧
      (q = p₄ ∨ isSpent p₄ (t.doomed ++ [id]) g = true ∧
        (p₄.func g).hasAttribute s.entryPointAttr = false ∧ p₄.eraseFunction g = .ok q) ∧
      current = some (.instr call) ∧
      t' = { t with program := q, doomed := t.doomed ++ [id], extra := t.extra + 1 } := by
  unfold specialiseCall at h
  obtain ⟨_, _, hprogram, h⟩ := bind_ok h
  cases hprogram
  dsimp only at h
  cases hexp : expandable? t.program (t.program.instr id) with
  | none =>
    rw [hexp] at h
    obtain ⟨rfl, rfl⟩ := pure_ok h
    exact .inl ⟨rfl, rfl, rfl⟩
  | some target =>
    obtain ⟨marker, g⟩ := target
    rw [hexp] at h
    dsimp only at h
    obtain ⟨c, t₁, hedit, h⟩ := bind_ok h
    obtain ⟨p₁, hcopy, rfl⟩ := walkEdit_ok.mp hedit
    obtain ⟨_, _, hprogram, h⟩ := bind_ok h
    cases hprogram
    obtain ⟨call, t₂, hedit, h⟩ := bind_ok h
    obtain ⟨p₂, hinsert, rfl⟩ := walkEdit_ok.mp hedit
    obtain ⟨_, t₃, hedit, h⟩ := bind_ok h
    obtain ⟨_, hname, rfl⟩ := walkEdit_ok.mp hedit
    obtain ⟨_, t₄, hedit, h⟩ := bind_ok h
    obtain ⟨p₃, hkind, rfl⟩ := walkEdit_ok.mp hedit
    obtain ⟨_, t₅, hedit, h⟩ := bind_ok h
    obtain ⟨_, hturn, rfl⟩ := walkEdit_ok.mp hedit
    obtain ⟨_, t₆, hdoom, h⟩ := bind_ok h
    obtain ⟨_, t₇, hcount, h⟩ := bind_ok h
    obtain ⟨n, t₈, hcompile, h⟩ := bind_ok h
    obtain ⟨p₄, hfold, rfl⟩ := walkCompile_ok.mp hcompile
    cases hname
    cases hturn
    cases hdoom
    cases hcount
    obtain ⟨_, _, hget, h⟩ := bind_ok h
    cases hget
    refine .inr ⟨marker, g, c, call, p₁, p₂, p₃, p₄, ?_⟩
    split at h
    · rename_i hspent
      obtain ⟨_, t₉, hedit, h⟩ := bind_ok h
      obtain ⟨q, herase, rfl⟩ := walkEdit_ok.mp hedit
      cases h
      obtain ⟨hspent, hplain⟩ := Bool.and_eq_true_iff.mp hspent
      exact ⟨q, n, rfl, tryMake_ok.mp hcopy, hinsert, attempt_ok.mp hkind, hfold,
        .inr ⟨hspent, (Bool.not_eq_true' _).mp hplain, attempt_ok.mp herase⟩, rfl, rfl⟩
    · cases h
      exact ⟨p₄, n, rfl, tryMake_ok.mp hcopy, hinsert, attempt_ok.mp hkind, hfold, .inl rfl, rfl,
        rfl⟩

theorem specialiseCall_walks {id : InstrId} {current : Option Value} (hw : Walking γ G f t)
    (hid : t.program.functionOf? id = some f) (hnot : id ∉ t.doomed)
    (h : specialiseCall s (.instr id) t = .ok current t') :
    ∃ γ', Onward γ γ' G f t t' ∧ CalleeUnder γ' f t'.program current ∧
      (t'.doomed = t.doomed ∨
        t'.doomed = t.doomed ++ [id] ∧ (t.program.instr id).isTerminator = false) := by
  rcases specialiseCall_cases h with ⟨hexp, rfl, rfl⟩ |
    ⟨marker, g, c, call, p₁, p₂, p₃, p₄, q, n, hexp, hcopy, hinsert, hkind, hfold, hspent, rfl, rfl⟩
  · refine ⟨γ, hw.onward, fun i k hi hk => ?_, .inl rfl⟩
    cases hi
    exact not_expandable (hw.fits hid hnot) hexp hk
  obtain ⟨m, hage⟩ := hw.aged
  obtain ⟨hcall, hcallee, -⟩ := expandable?_eq_some.mp hexp
  obtain ⟨-, -, hreach⟩ := (hw.fits hid hnot).call hcall hcallee
  obtain ⟨hc, hs₁, hturning⟩ := turning_copy hw.fitting hw.live hage hid (hw.not_mem hid hnot)
    (hw.not_inside hreach) hexp hcopy
  obtain ⟨hturned, hs₂, hin, hcalls⟩ := hturning.turn hinsert hkind
  have hp := hw.fitting.sound
  have hnew : ∀ {k : FuncId}, k.index < t.program.functions.size → k ≠ c := by
    rintro k hlt rfl
    rw [hc] at hlt
    exact Nat.lt_irrefl _ hlt
  have hfoldable : Foldable (γ.copied c g (t.program.functions.size + 1)) (id :: (G ++ t.doomed))
      (id :: (G ++ t.doomed)) c (p₃.replaceUses (.instr id) (.instr call)) := by
    refine ⟨hturned, hs₂.func c not_false hturning.live, fun d hd => ?_⟩
    obtain ⟨k, hk⟩ := hw.placed hid hd
    obtain ⟨b, -, hb⟩ := Option.bind_eq_some_iff.mp hk
    exact ⟨k, hnew (func_lt_of_mem (hp.mem_blocks.mpr hb)),
      (hs₁.trans hs₂).functionOf not_false hk⟩
  obtain ⟨hfolded, hs₃⟩ := hfoldable.foldControlFlow hfold
  -- what goes after the call has been turned is of the copy or of the callee
  obtain ⟨hfits, hs₄⟩ : Fitting (γ.copied c g (t.program.functions.size + 1))
      (id :: (G ++ t.doomed)) (id :: (G ++ t.doomed)) q ∧
      Spares (fun k => k = c ∨ γ.Reach k f) (p₃.replaceUses (.instr id) (.instr call)) q := by
    have hs := hs₃.mono (L := fun k => k = c ∨ γ.Reach k f) hturned.sound fun _ _ => .inl
    rcases hspent with rfl | ⟨hspent, -, herase⟩
    · exact ⟨hfolded.fitting, hs⟩
    · obtain ⟨-, rfl⟩ := (eraseFunction_ok hfolded.fitting.sound).mp herase
      refine ⟨dropSpent_fits hfolded.fitting (fun d hd => ?_) hspent,
        hs.trans (spares_dropFunction hfolded.fitting.sound (.inr hreach))⟩
      rcases List.mem_append.mp hd with hd | hd
      · exact List.mem_cons_of_mem _ (List.mem_append_right _ hd)
      · rw [List.mem_singleton.mp hd]
        exact List.mem_cons_self
  have hs : Spares (γ.Reach · f) t.program q :=
    ((hs₁.trans hs₂).mono hp fun _ _ => False.elim).trans_old hs₄ hp hturned.sound
      fun k hlt hk => hk.resolve_left (hnew hlt)
  refine ⟨γ.copied c g (t.program.functions.size + 1), ⟨?_, ?_, hs⟩, fun i k hi hk => ?_,
    .inr ⟨rfl, by rw [Instr.isTerminator, hcall]; rfl⟩⟩
  · exact Layers.extends_copied (by rw [hc])
  · have hsame : ∀ i, i ∈ G ++ (t.doomed ++ [id]) ↔ i ∈ id :: (G ++ t.doomed) := by
      intro i
      simp only [List.mem_append, List.mem_cons, List.not_mem_nil, or_false]
      rw [← or_assoc, or_comm]
    have hsub : G ++ (t.doomed ++ [id]) ⊆ id :: (G ++ t.doomed) := fun i hi => (hsame i).mp hi
    refine hw.next (Layers.extends_copied (by rw [hc]))
      (hfits.forget hsub hsub fun i hi hout => absurd ((hsame i).mpr hi) hout) hs fun d hd => ?_
    rcases List.mem_append.mp hd with hd | hd
    · exact hw.own d hd
    · rw [List.mem_singleton.mp hd]
      exact hid
  · cases hi
    have hf : ¬ (f = c ∨ γ.Reach f f) := fun h => h.elim (hnew hw.lt) (Layers.not_reach_self hage)
    rw [hs₄.callee call c (hs₄.instr f call hf hin) hcalls, Option.some_inj] at hk
    exact .inl (hk ▸ hturning.under)

/-! ## 5. Blocks -/

/-- The walk is in the middle of a function: the instructions of `todo` are next, then the blocks of
    the queue. What is doomed stands in blocks that have left the queue. -/
structure Touring (γ : Layers) (G : List InstrId) (f : FuncId) (todo : List InstrId)
    (front : Frontier) (t : PathState Nat) : Prop where
  walking : Walking γ G f t
  waiting : ∀ i ∈ todo, t.program.functionOf? i = some f ∧ i ∉ t.doomed
  nodup : todo.Nodup
  queue : front.queue.Nodup
  queued : ∀ b ∈ front.queue, b ∈ front.queued ∧ (t.program.block b).parent = some f
  left : ∀ i, i ∈ todo ∨ i ∈ t.doomed → ∀ b, (t.program.instr i).parent = some b →
    b ∈ front.queued ∧ b ∉ front.queue

theorem Touring.next {γ' : Layers} {todo todo' : List InstrId} {front : Frontier}
    (h : Touring γ G f todo front t) (hv : Onward γ γ' G f t t') (hsub : todo'.Sublist todo)
    (hdoomed : ∀ i ∈ t'.doomed, i ∈ t.doomed ∨ i ∈ todo ∧ i ∉ todo') :
    Touring γ' G f todo' front t' := by
  obtain ⟨n, hn⟩ := h.walking.aged
  have hself := Layers.not_reach_self hn
  refine ⟨hv.walking, fun i hi => ?_, h.nodup.sublist hsub, h.queue, fun b hb => ?_,
    fun i hi b hb => ?_⟩
  · obtain ⟨hin, hnot⟩ := h.waiting i (hsub.subset hi)
    exact ⟨hv.spares.functionOf hself hin, fun hmem => (hdoomed i hmem).elim hnot fun h => h.2 hi⟩
  · exact ⟨(h.queued b hb).1, hv.spares.blockOf hself (h.queued b hb).2⟩
  · have hold : i ∈ todo ∨ i ∈ t.doomed := by
      rcases hi with hi | hi
      · exact .inl (hsub.subset hi)
      · exact (hdoomed i hi).symm.imp_left And.left
    have hin : t.program.functionOf? i = some f :=
      hold.elim (fun hi => (h.waiting i hi).1) (h.walking.own i)
    rw [hv.spares.instrOf hself hin] at hb
    exact h.left i hold b hb

theorem Touring.push {todo : List InstrId} {front : Frontier} {c : BlockId}
    (h : Touring γ G f todo front t) (hc : (t.program.block c).parent = some f) :
    Touring γ G f todo (front.push c) t := by
  unfold Frontier.push
  split
  · exact h
  rename_i hnew
  have hnew : c ∉ front.queued := by simpa using hnew
  have hnot : c ∉ front.queue := fun hmem => hnew (h.queued c hmem).1
  refine ⟨h.walking, h.waiting, h.nodup, ?_, fun b hb => ?_, fun i hi b hb => ?_⟩
  · exact List.nodup_append.mpr ⟨h.queue, List.nodup_singleton c, fun x hx y hy heq =>
      hnot (List.mem_singleton.mp hy ▸ heq ▸ hx)⟩
  · rcases List.mem_append.mp hb with hb | hb
    · exact ⟨List.mem_cons_of_mem _ (h.queued b hb).1, (h.queued b hb).2⟩
    · rw [List.mem_singleton.mp hb]
      exact ⟨List.mem_cons_self, hc⟩
  · obtain ⟨hqueued, hout⟩ := h.left i hi b hb
    refine ⟨List.mem_cons_of_mem _ hqueued, fun hmem => ?_⟩
    rcases List.mem_append.mp hmem with hmem | hmem
    · exact hout hmem
    · exact hnew (List.mem_singleton.mp hmem ▸ hqueued)

theorem Touring.pushAll {todo : List InstrId} {front : Frontier} {bs : List BlockId}
    (h : Touring γ G f todo front t) (hbs : ∀ b ∈ bs, (t.program.block b).parent = some f) :
    Touring γ G f todo (bs.foldl Frontier.push front) t := by
  induction bs generalizing front with
  | nil => exact h
  | cons b bs ih =>
    exact ih (h.push (hbs b List.mem_cons_self)) fun c hc => hbs c (List.mem_cons_of_mem _ hc)

theorem mem_of_targets {limits : WalkLimits} {name : String} {i : Instr} {bs : List BlockId}
    (h : Walk.targets limits name i = .ok bs) {b : BlockId} (hb : b ∈ bs) :
    i.isTerminator = true ∧ (∀ marker, i.kind ≠ .call marker) ∧ .block b ∈ i.operands := by
  unfold Walk.targets at h
  rw [Instr.isTerminator]
  split at h
  · rename_i hkind
    cases h
    rw [hkind]
    exact ⟨rfl, fun _ hcall => InstrKind.noConfusion hcall, Instr.mem_of_successors hb⟩
  · rename_i hkind
    cases h
    rw [hkind]
    exact ⟨rfl, fun _ hcall => InstrKind.noConfusion hcall, Instr.mem_of_successors hb⟩
  · rename_i hkind
    split at h
    · cases h
      obtain ⟨⟨normal, unwind⟩, hdest, rfl⟩ := List.mem_map.mp hb
      rw [hkind]
      exact ⟨rfl, fun _ hcall => InstrKind.noConfusion hcall,
        Replacing.mem_of_invokeDestinations? (Option.mem_toList.mp hdest)⟩
    · cases h
  · cases h
    cases hb

/-- Following a call keeps the walk of the function going, and dooms nothing in it. -/
def Leads (follow : FuncId → Walk Nat Bool) : Prop :=
  ∀ {γ : Layers} {G : List InstrId} {f k : FuncId} {t t' : PathState Nat} {b : Bool},
    Walking γ G f t → γ.Under k f ∨ (t.program.func k).isDeclaration = true →
    follow k t = .ok b t' → ∃ γ', Onward γ γ' G f t t' ∧ t'.doomed = t.doomed

section

variable {limits : WalkLimits} {follow : FuncId → Walk Nat Bool} (hfollow : Leads follow)

include hfollow

theorem Touring.visitInstr {todo : List InstrId} {id : InstrId} {front front' : Frontier}
    (h : Touring γ G f (id :: todo) front t)
    (hvisit : Walk.visitInstr limits (specialiseCall s) follow f front id t = .ok front' t') :
    ∃ γ', Onward γ γ' G f t t' ∧ Touring γ' G f todo front' t' := by
  obtain ⟨hid, hnot⟩ := h.waiting id List.mem_cons_self
  obtain ⟨hout, -⟩ := List.nodup_cons.mp h.nodup
  have hsub : todo.Sublist (id :: todo) := List.sublist_cons_self id todo
  rcases Walk.visitInstr_cases hvisit with ⟨-, rfl, rfl⟩ | ⟨-, current, t₁, hspecialise, hrest⟩
  · exact ⟨γ, h.walking.onward, h.next h.walking.onward hsub fun _ => .inl⟩
  obtain ⟨γ₁, hv₁, hfollows, hdoomed⟩ := specialiseCall_walks h.walking hid hnot hspecialise
  have h₁ : Touring γ₁ G f todo front t₁ := by
    refine h.next hv₁ hsub fun i hi => ?_
    rcases hdoomed with hsame | ⟨hdoom, -⟩
    · exact .inl (hsame ▸ hi)
    · rw [hdoom] at hi
      refine (List.mem_append.mp hi).imp_right fun hi => ?_
      rw [List.mem_singleton.mp hi]
      exact ⟨List.mem_cons_self, hout⟩
  rcases hrest with ⟨-, rfl, rfl⟩ | ⟨hcall, bs, htargets, rfl⟩
  · exact ⟨γ₁, hv₁, h₁⟩
  -- what is called there is walked
  obtain ⟨γ₂, hv₂, hsame⟩ : ∃ γ₂, Onward γ₁ γ₂ G f t₁ t' ∧ t'.doomed = t₁.doomed := by
    rcases hcall with ⟨rfl, -⟩ | ⟨i, k, b, hi, hk, hwalk⟩
    · exact ⟨γ₁, h₁.walking.onward, rfl⟩
    · exact hfollow h₁.walking (hfollows i k hi hk) hwalk
  have h₂ := h₁.next hv₂ (List.Sublist.refl _) fun i hi => .inl (hsame ▸ hi)
  have hv := hv₁.trans h.walking hv₂
  refine ⟨γ₂, hv, h₂.pushAll fun b hb => ?_⟩
  -- only a terminator has targets, and such a one is not doomed
  obtain ⟨hterm, hplain, hmem⟩ := mem_of_targets htargets hb
  obtain ⟨n, hn⟩ := h.walking.aged
  have hin := hv.spares.functionOf (Layers.not_reach_self hn) hid
  have hstanding : id ∉ t'.doomed := by
    rw [hsame]
    rcases hdoomed with hsame | ⟨-, hnone⟩
    · exact hsame ▸ hnot
    · have hlt := instr_lt_of_live (h.walking.fitting.sound.live_of_functionOf hid)
      rw [hv.spares.terminator id hlt, hnone] at hterm
      cases hterm
  exact ((h₂.walking.fits hin hstanding).of_not_call hplain _ hmem).parent

theorem Touring.visitInstrs {todo : List InstrId} {front front' : Frontier}
    (h : Touring γ G f todo front t)
    (hvisit : todo.foldlM (Walk.visitInstr limits (specialiseCall s) follow f) front t =
      .ok front' t') :
    ∃ γ', Onward γ γ' G f t t' ∧ Touring γ' G f [] front' t' := by
  induction todo generalizing γ front t with
  | nil =>
    obtain ⟨rfl, rfl⟩ := pure_ok hvisit
    exact ⟨γ, h.walking.onward, h⟩
  | cons id todo ih =>
    rw [List.foldlM_cons] at hvisit
    obtain ⟨front₁, t₁, hone, hvisit⟩ := bind_ok hvisit
    obtain ⟨γ₁, hv₁, h₁⟩ := h.visitInstr hfollow hone
    obtain ⟨γ₂, hv₂, h₂⟩ := ih h₁ hvisit
    exact ⟨γ₂, hv₁.trans h.walking hv₂, h₂⟩

theorem Touring.visitBlock {b : BlockId} {rest queued : List BlockId} {front' : Frontier}
    (h : Touring γ G f [] ⟨b :: rest, queued⟩ t)
    (hvisit : Walk.visitBlock limits (specialiseCall s) follow f ⟨rest, queued⟩ b t =
      .ok front' t') :
    ∃ γ', Onward γ γ' G f t t' ∧ Touring γ' G f [] front' t' := by
  have hp := h.walking.fitting.sound
  obtain ⟨hb, hrest⟩ := List.nodup_cons.mp h.queue
  obtain ⟨hqueued, hparent⟩ := h.queued b List.mem_cons_self
  have hnext : Touring γ G f [] ⟨rest, queued⟩ t := by
    refine ⟨h.walking, nofun, List.nodup_nil, hrest,
      fun c hc => h.queued c (List.mem_cons_of_mem _ hc), fun i hi c hc => ?_⟩
    obtain ⟨hc', hout⟩ := h.left i hi c hc
    exact ⟨hc', fun hmem => hout (List.mem_cons_of_mem _ hmem)⟩
  unfold Walk.visitBlock at hvisit
  obtain ⟨_, _, hprogram, hvisit⟩ := bind_ok hvisit
  cases hprogram
  split at hvisit
  · obtain ⟨rfl, rfl⟩ := pure_ok hvisit
    exact ⟨γ, h.walking.onward, hnext⟩
  obtain ⟨_, _, hblock, hvisit⟩ := bind_ok hvisit
  cases hblock
  obtain ⟨_, _, hprogram, hvisit⟩ := bind_ok hvisit
  cases hprogram
  -- none of its instructions has been doomed, since the block has not left the queue before
  refine Touring.visitInstrs hfollow
    ⟨h.walking, fun i hi => ⟨?_, fun hmem => ?_⟩, hp.nodup_instrs b,
    hrest, hnext.queued, fun i hi c hc => ?_⟩ hvisit
  · exact hp.functionOf_of_mem (hp.mem_blocks.mpr hparent) hi
  · exact (h.left i (.inr hmem) b (hp.mem_instrs.mp hi)).2 List.mem_cons_self
  · rcases hi with hi | hi
    · rw [hp.mem_instrs.mp hi, Option.some_inj] at hc
      subst hc
      exact ⟨hqueued, hb⟩
    · exact hnext.left i (.inr hi) c hc

theorem Touring.visitBlocks {fuel : Nat} {front : Frontier} {u : Unit}
    (h : Touring γ G f [] front t)
    (hvisit : Walk.visitBlocks limits (specialiseCall s) follow f fuel front t = .ok u t') :
    ∃ γ', Onward γ γ' G f t t' := by
  induction fuel generalizing γ front t with
  | zero =>
    obtain ⟨-, rfl⟩ := pure_ok hvisit
    exact ⟨γ, h.walking.onward⟩
  | succ fuel ih =>
    obtain ⟨queue, queued⟩ := front
    cases queue with
    | nil =>
      obtain ⟨-, rfl⟩ := pure_ok hvisit
      exact ⟨γ, h.walking.onward⟩
    | cons b rest =>
      unfold Walk.visitBlocks at hvisit
      obtain ⟨front₁, t₁, hone, hvisit⟩ := bind_ok hvisit
      obtain ⟨γ₁, hv₁, h₁⟩ := h.visitBlock hfollow hone
      obtain ⟨γ₂, hv₂⟩ := ih h₁ hvisit
      exact ⟨γ₂, hv₁.trans h.walking hv₂⟩

theorem Walking.visitFunction {u : Unit} (h : Walking γ G f t) (hdoomed : t.doomed = [])
    (hvisit : Walk.visitFunction limits (specialiseCall s) follow f t = .ok u t') :
    ∃ γ', Onward γ γ' G f t t' := by
  unfold Walk.visitFunction at hvisit
  obtain ⟨_, _, hprogram, hvisit⟩ := bind_ok hvisit
  cases hprogram
  cases hentry : (t.program.func f).entryBlock? with
  | none =>
    rw [hentry] at hvisit
    obtain ⟨-, rfl⟩ := pure_ok hvisit
    exact ⟨γ, h.onward⟩
  | some entry =>
    rw [hentry] at hvisit
    obtain ⟨_, _, hfunc, hvisit⟩ := bind_ok hvisit
    cases hfunc
    have hparent := h.fitting.sound.mem_blocks.mp (List.mem_of_mem_head? hentry)
    refine Touring.visitBlocks hfollow ⟨h, nofun, List.nodup_nil, List.nodup_singleton _,
      fun b hb => ?_, fun i hi => ?_⟩ hvisit
    · rw [List.mem_singleton.mp hb]
      exact ⟨List.mem_singleton_self _, hparent⟩
    · rw [hdoomed] at hi
      exact absurd hi (by simp)

end

/-! ## 6. Walks -/

theorem eraseDoomed_fits {ids : List InstrId} {u : Unit}
    (h : Fitting γ (ids ++ X) (ids ++ X) t.program) (hids : ∀ d ∈ ids, Inside f t.program d)
    (herase : Walk.eraseDoomed ids t = .ok u t') :
    Fitting γ X X t'.program ∧ Spares (· = f) t.program t'.program := by
  induction ids generalizing t with
  | nil =>
    obtain ⟨-, rfl⟩ := pure_ok herase
    exact ⟨h, .refl h.sound⟩
  | cons id ids ih =>
    have hrest : ∀ d ∈ ids, Inside f t.program d := fun d hd => hids d (List.mem_cons_of_mem _ hd)
    have hsub : ids ++ X ⊆ id :: ids ++ X := fun _ hi => List.mem_cons_of_mem _ hi
    unfold Walk.eraseDoomed at herase
    obtain ⟨_, _, hprogram, herase⟩ := bind_ok herase
    cases hprogram
    by_cases hgone : (t.program.instr id).erased = true
    · rw [if_pos hgone] at herase
      refine ih (h.forget hsub hsub fun i hi hout => ?_) hrest herase
      obtain rfl := (List.mem_cons.mp hi).resolve_right hout
      exact hgone
    · rw [if_neg hgone] at herase
      obtain ⟨_, t₁, hedit, herase⟩ := bind_ok herase
      obtain ⟨q, hdrop, rfl⟩ := walkEdit_ok.mp hedit
      obtain ⟨hlive, rfl⟩ := eraseInstr_ok.mp (attempt_ok.mp hdrop)
      have hin := (hids id List.mem_cons_self).2.resolve_left hgone
      have hs : Spares (· = f) t.program (t.program.dropInstr id) :=
        spares_dropInstr h.sound hlive fun k hk => Option.some.inj (hk.symm.trans hin)
      have hdropped := h.dropInstr List.mem_cons_self List.mem_cons_self hlive
      have hforgotten : Fitting γ (ids ++ X) (ids ++ X) (t.program.dropInstr id) := by
        refine hdropped.forget hsub hsub fun i hi hout => ?_
        obtain rfl := (List.mem_cons.mp hi).resolve_right hout
        rw [instr_dropInstr_self (instr_lt_of_live hlive)]
      obtain ⟨hfits, hs'⟩ := ih (t := { t with program := t.program.dropInstr id }) hforgotten
        (fun d hd => hs.inside hdropped.sound (hrest d hd)) herase
      exact ⟨hfits, hs.trans hs'⟩

theorem walkBody_fits {limits : WalkLimits} {depth : Nat} {doomed : List InstrId} {b : Bool}
    (hfollow : Leads (Walk.walkWithin limits (specialiseCall s) depth)) (hw : Walking γ X f t)
    (hnone : t.doomed = [])
    (h : Walk.walkBody limits (specialiseCall s) depth f doomed t = .ok b t') :
    ∃ γ', γ.Extends γ' t.program.functions.size ∧ Fitting γ' X X t'.program ∧
      Spares (fun k => k = f ∨ γ.Reach k f) t.program t'.program ∧ t'.doomed = doomed := by
  unfold Walk.walkBody at h
  obtain ⟨_, t₁, hfunction, h⟩ := bind_ok h
  obtain ⟨γ₁, hv⟩ := hw.visitFunction hfollow hnone hfunction
  obtain ⟨_, _, hget, h⟩ := bind_ok h
  cases hget
  obtain ⟨_, t₂, herase, h⟩ := bind_ok h
  have h₁ := hv.walking
  have hsame : ∀ i, i ∈ t₁.doomed ++ X ↔ i ∈ X ++ t₁.doomed := by
    simp only [List.mem_append, or_comm, implies_true]
  have hsub : t₁.doomed ++ X ⊆ X ++ t₁.doomed := fun i hi => (hsame i).mp hi
  obtain ⟨hfits, hs⟩ := eraseDoomed_fits
    (h₁.fitting.forget hsub hsub fun i hi hout => absurd ((hsame i).mpr hi) hout)
    (fun d hd => inside_of_functionOf h₁.fitting.sound (h₁.own d hd)) herase
  cases h
  refine ⟨γ₁, hv.layers, hfits, ?_, rfl⟩
  exact (hv.spares.mono hw.fitting.sound fun _ _ => .inr).trans
    (hs.mono h₁.fitting.sound fun _ _ => .inl)

theorem walkWithin_leads (limits : WalkLimits) (depth : Nat) :
    Leads (Walk.walkWithin limits (specialiseCall s) depth) := by
  induction depth with
  | zero =>
    intro γ G f k t t' b hw _ h
    obtain ⟨-, rfl⟩ := pure_ok h
    exact ⟨γ, hw.onward, rfl⟩
  | succ depth ih =>
    intro γ G f k t t' b hw hk h
    rw [Walk.walkWithin_apply] at h
    split at h
    · cases h
      exact ⟨γ, hw.onward, rfl⟩
    rename_i hover
    simp only [Walk.passesOver, Bool.or_eq_true, not_or, Bool.not_eq_true] at hover
    have hunder : γ.Under k f := hk.resolve_right (by rw [hover.1.2]; exact Bool.false_ne_true)
    obtain ⟨n, hn, -⟩ := id hunder
    have hstart : Walking γ (G ++ t.doomed) k
        { t with visited := k :: t.visited, doomed := [] } := by
      refine ⟨?_, hover.1.1, ⟨n, hn⟩, fun d hd => ?_, nofun⟩
      · rw [List.append_nil]
        exact hw.fitting
      · rcases List.mem_append.mp hd with hd | hd
        · obtain ⟨g, hg, hin⟩ := hw.outer d hd
          exact ⟨g, hunder.trans hg, hin⟩
        · exact ⟨f, hunder, hw.own d hd⟩
    obtain ⟨γ', hext, hfits, hs, hdoomed⟩ := walkBody_fits ih hstart rfl h
    have hs' : Spares (γ.Reach · f) t.program t'.program :=
      hs.mono hw.fitting.sound fun g _ hg =>
        hg.elim (fun heq => heq ▸ hunder.reach) fun hreach => hreach.trans_under hunder
    refine ⟨γ', ⟨hext, hw.next hext ?_ hs' fun d hd => ?_, hs'⟩, hdoomed⟩
    · rw [hdoomed]
      exact hfits
    · rw [hdoomed] at hd
      exact hw.own d hd

/-! ## 7. Entry points -/

/-- A walk from an entry point keeps a program fitting. -/
theorem walk_fits {limits : WalkLimits} {b : Bool} {n : Nat} (h : Fitting γ [] [] t.program)
    (hdoomed : t.doomed = []) (hage : γ.age f = some n)
    (hwalk : Walk.walk limits (specialiseCall s) f t = .ok b t') :
    ∃ γ', γ.Extends γ' t.program.functions.size ∧ Fitting γ' [] [] t'.program ∧ t'.doomed = [] ∧
      Spares (fun _ => True) t.program t'.program := by
  unfold Walk.walk at hwalk
  cases hdepth : limits.maxDepth with
  | zero =>
    rw [hdepth] at hwalk
    obtain ⟨-, rfl⟩ := pure_ok hwalk
    exact ⟨γ, .refl γ _, h, hdoomed, .refl h.sound⟩
  | succ depth =>
    rw [hdepth, Walk.walkWithin_apply] at hwalk
    split at hwalk
    · cases hwalk
      exact ⟨γ, .refl γ _, h, hdoomed, .refl h.sound⟩
    rename_i hover
    simp only [Walk.passesOver, Bool.or_eq_true, not_or, Bool.not_eq_true] at hover
    have hstart : Walking γ [] f { t with visited := f :: t.visited, doomed := [] } :=
      ⟨h, hover.1.1, ⟨n, hage⟩, nofun, nofun⟩
    obtain ⟨γ', hext, hfits, hs, hdoomed'⟩ :=
      walkBody_fits (walkWithin_leads limits depth) hstart rfl hwalk
    exact ⟨γ', hext, hfits, hdoomed'.trans hdoomed, hs.mono h.sound fun _ _ _ => trivial⟩

theorem foldControlFlow_hollow {rules : List (Rule Unit)} {n : Nat}
    (hf : (p.func f).blocks = []) (h : foldControlFlow rules f p = .ok n q) : q = p := by
  have hinstrs : p.instrsOf f = [] := by rw [instrsOf, hf]; rfl
  unfold foldControlFlow at h
  obtain ⟨_, _, hget, h⟩ := bind_ok h
  cases hget
  rw [hinstrs] at h
  obtain ⟨folded, p₁, hfold, h⟩ := bind_ok h
  have hfold := tryMake_ok.mp (compileEdit_ok.mp hfold)
  rw [foldConstants, hinstrs, List.length_nil, Program.foldRounds, hinstrs] at hfold
  cases hfold
  obtain ⟨_, _, hget, h⟩ := bind_ok h
  cases hget
  rw [hinstrs] at h
  cases h
  rfl

theorem expandEntries_fits {entries : List FuncId} {u : Unit} (h : Fitting γ [] [] t.program)
    (hdoomed : t.doomed = [])
    (hentries : ∀ e ∈ entries, (∃ n, γ.age e = some n) ∧
      ((t.program.func e).erased = false ∨ (t.program.func e).blocks = []))
    (hexpand : expandEntries s entries t = .ok u t') : ∃ γ', Fitting γ' [] [] t'.program := by
  induction entries generalizing γ t with
  | nil =>
    obtain ⟨-, rfl⟩ := pure_ok hexpand
    exact ⟨γ, h⟩
  | cons e entries ih =>
    obtain ⟨⟨n, hn⟩, hbody⟩ := hentries e List.mem_cons_self
    unfold expandEntries at hexpand
    obtain ⟨_, t₁, hcompile, hexpand⟩ := bind_ok hexpand
    obtain ⟨p₁, hfold, rfl⟩ := walkCompile_ok.mp hcompile
    obtain ⟨_, t₂, hwalk, hexpand⟩ := bind_ok hexpand
    have hfolded : Fitting γ [] [] p₁ ∧ Spares (fun _ => True) t.program p₁ := by
      rcases hbody with hlive | hhollow
      · have hfoldable : Foldable γ [] [] e t.program := ⟨h, hlive, nofun⟩
        obtain ⟨hfits, hs⟩ := hfoldable.foldControlFlow hfold
        exact ⟨hfits.fitting, hs.mono h.sound fun _ _ _ => trivial⟩
      · rw [foldControlFlow_hollow hhollow hfold]
        exact ⟨h, .refl h.sound⟩
    obtain ⟨γ', hext, hfits, hdoomed', hs⟩ :=
      walk_fits (t := { t with program := p₁ }) hfolded.1 hdoomed hn hwalk
    have hall := hfolded.2.trans hs
    refine ih hfits hdoomed' (fun e' he' => ?_) hexpand
    obtain ⟨⟨m, hm⟩, hbody'⟩ := hentries e' (List.mem_cons_of_mem _ he')
    have hlt := (h.ages e' m hm).1
    refine ⟨⟨m, ?_⟩, hall.hollow e' hlt hbody'⟩
    exact (hext e' (Nat.lt_of_lt_of_le hlt hfolded.2.buries.functions)).2.trans hm

/-- A verified program stays verified and calls nothing that is erased, if its functions can be
    ordered (`Layered`) and its operands are `Regular`: none has a part of a function inside, and
    arguments are among the parameters. -/
theorem specialiseCalls_verified {inPlace : List FuncId} {height : FuncId → Nat} {n : Nat}
    (hp : p.Sound) (hverify : p.verify = .ok ()) (hregular : p.Regular)
    (hlayers : p.Layered inPlace height) (hentries : s.entryPoints p ⊆ inPlace)
    (h : specialiseCalls s p = .ok n q) :
    q.verify = .ok () ∧ ∀ f i k, (q.func f).erased = false → q.functionOf? i = some f →
      .func k ∈ (q.instr i).operands → (q.func k).erased = false := by
  have hstart := hlayers.fitting hp (verify_ok.mp hverify) hregular
  unfold specialiseCalls at h
  split at h
  · rename_i t hexpand
    cases h
    have haged : ∀ e ∈ s.entryPoints p, (∃ m, (startLayers inPlace height).age e = some m) ∧
        ((p.func e).erased = false ∨ (p.func e).blocks = []) := fun e he =>
      ⟨⟨0, if_pos (hentries he)⟩, .inl (mem_liveFunctions.mp (List.mem_filter.mp he).1)⟩
    obtain ⟨γ', hfits⟩ :=
      expandEntries_fits (t := { program := p, extra := 0 }) hstart rfl haged hexpand
    refine ⟨verify_ok.mpr hfits.verified, fun f i k hf hi hk => ?_⟩
    have hproblem := (hfits.fits hi hf List.not_mem_nil).operands.problem _ hk
    unfold operandProblem? at hproblem
    simpa using hproblem
  · cases h

/-- A function that calls itself as long as its argument is not zero, called with a constant. -/
def looping : Program where
  name := "looping"
  functions := #[
    ⟨"Main", .void, [], false, none, none, [.pair "EntryPoint" none], [⟨0⟩], false⟩,
    ⟨"Loop", .void, [⟨some "c", .int 1⟩], false, none, none, [], [⟨1⟩, ⟨2⟩, ⟨3⟩], false⟩]
  blocks := #[
    ⟨some "entry", some ⟨0⟩, [⟨0⟩, ⟨1⟩], false⟩,
    ⟨some "entry", some ⟨1⟩, [⟨2⟩], false⟩,
    ⟨some "again", some ⟨1⟩, [⟨3⟩, ⟨4⟩], false⟩,
    ⟨some "done", some ⟨1⟩, [⟨5⟩], false⟩]
  instrs := #[
    ⟨.call .none, .void, [.int 1 1, .func ⟨1⟩], none, some ⟨0⟩, false⟩,
    ⟨.ret, .void, [], none, some ⟨0⟩, false⟩,
    ⟨.br, .void, [.arg ⟨1⟩ 0, .block ⟨3⟩, .block ⟨2⟩], none, some ⟨1⟩, false⟩,
    ⟨.call .none, .void, [.arg ⟨1⟩ 0, .func ⟨1⟩], none, some ⟨2⟩, false⟩,
    ⟨.br, .void, [.block ⟨3⟩], none, some ⟨2⟩, false⟩,
    ⟨.ret, .void, [], none, some ⟨3⟩, false⟩]

theorem instr_looping_beyond (i : Nat) : looping.instr ⟨i + 6⟩ = .tombstone :=
  instr_of_le (Nat.le_add_left 6 i)

theorem operands_looping (i : InstrId) : (looping.instr i).operands ⊆
    [.int 1 1, .func ⟨1⟩, .arg ⟨1⟩ 0, .block ⟨2⟩, .block ⟨3⟩] := by
  obtain ⟨i⟩ := i
  match i with
  | 0 | 1 | 2 | 3 | 4 | 5 => simp [looping, instr]
  | i + 6 =>
    rw [instr_looping_beyond]
    exact List.nil_subset _

theorem regular_looping : looping.Regular := by
  constructor
  · intro f i _ _ v hv
    have hmem := operands_looping i hv
    simp only [List.mem_cons, List.not_mem_nil, or_false] at hmem
    rcases hmem with rfl | rfl | rfl | rfl | rfl
    · exact Value.flat_int 1 1
    · exact Value.flat_func ⟨1⟩
    all_goals exact Value.flat_of_isLocal rfl
  · intro f i g k _ _ hv
    have hmem := operands_looping i hv
    simp only [List.mem_cons, List.not_mem_nil, or_false, reduceCtorEq, false_or,
      Value.arg.injEq] at hmem
    obtain ⟨rfl, rfl⟩ := hmem
    decide

theorem layered_looping : looping.Layered [⟨0⟩] (fun _ => 0) := by
  refine ⟨by decide, ?_⟩
  rintro f ⟨i⟩ k - - hk
  refine .inr ?_
  match i with
  | 0 =>
    obtain rfl : FuncId.mk 1 = k := by
      simpa [looping, instr, Instr.uses, Value.mentions] using hk
    exact ⟨by decide, Nat.le_refl 0, .none, [.int 1 1], rfl, rfl, by decide, rfl, rfl⟩
  | 3 =>
    obtain rfl : FuncId.mk 1 = k := by
      simpa [looping, instr, Instr.uses, Value.mentions] using hk
    exact ⟨by decide, Nat.le_refl 0, .none, [.arg ⟨1⟩ 0], rfl, rfl, by decide, rfl, rfl⟩
  | 1 | 2 | 4 | 5 => simp [looping, instr, Instr.uses, Value.mentions] at hk
  | i + 6 =>
    rw [instr_looping_beyond] at hk
    cases hk

theorem specialiseCalls_verified_looping :
    ∃ n q, specialiseCalls { maxRecursion := 2 } looping = .ok n q ∧ q.verify = .ok () := by
  obtain ⟨n, q, hrun, -⟩ := exists_ok (r := specialiseCalls { maxRecursion := 2 } looping)
    (P := fun _ => True) (by decide +kernel)
  exact ⟨n, q, hrun, (specialiseCalls_verified (by decide +kernel) (by rfl) regular_looping
    layered_looping (by decide +kernel) hrun).1⟩

/-- An entry point that calls another function first, and then itself. -/
def recursive : Program where
  name := "recursive"
  functions := #[
    ⟨"Main", .void, [], false, none, none, [.pair "EntryPoint" none], [⟨0⟩], false⟩,
    ⟨"A", .void, [], false, none, none, [], [⟨1⟩], false⟩]
  blocks := #[
    ⟨some "entry", some ⟨0⟩, [⟨0⟩, ⟨1⟩, ⟨2⟩], false⟩,
    ⟨some "entry", some ⟨1⟩, [⟨3⟩], false⟩]
  instrs := #[
    ⟨.call .none, .void, [.func ⟨1⟩], none, some ⟨0⟩, false⟩,
    ⟨.call .none, .void, [.func ⟨0⟩], none, some ⟨0⟩, false⟩,
    ⟨.ret, .void, [], none, some ⟨0⟩, false⟩,
    ⟨.ret, .void, [], none, some ⟨1⟩, false⟩]

/-- A function that compares its parameter inside a constant expression, called with null. -/
def enclosing : Program where
  name := "enclosing"
  functions := #[
    ⟨"Main", .void, [], false, none, none, [.pair "EntryPoint" none], [⟨0⟩], false⟩,
    ⟨"F", .void, [⟨some "p", .ptr (.int 8)⟩], false, none, none, [], [⟨1⟩], false⟩]
  blocks := #[
    ⟨some "entry", some ⟨0⟩, [⟨0⟩, ⟨1⟩], false⟩,
    ⟨some "entry", some ⟨1⟩, [⟨2⟩, ⟨3⟩], false⟩]
  instrs := #[
    ⟨.call .none, .void, [.null (.ptr (.int 8)), .func ⟨1⟩], none, some ⟨0⟩, false⟩,
    ⟨.ret, .void, [], none, some ⟨0⟩, false⟩,
    ⟨.icmp .eq, .int 1, [.cast .ptrtoint (.arg ⟨1⟩ 0) (.int 64), .int 64 0], some "x", some ⟨1⟩,
      false⟩,
    ⟨.ret, .void, [], none, some ⟨1⟩, false⟩]

/-- A function that calls itself leaves a call of an erased one behind; an argument inside a
    constant is not renamed. -/
theorem copies_left_broken :
    (recursive.Sound ∧ recursive.verify = .ok () ∧
      ∃ n q, specialiseCalls { maxRecursion := 1 } recursive = .ok n q ∧
        q.problems = ["@Main.1: <call inst7> uses erased function fn1"]) ∧
    (enclosing.Sound ∧ enclosing.verify = .ok () ∧
      ∃ n q, specialiseCalls {} enclosing = .ok n q ∧
        q.problems = ["@F.1: %x uses an argument of another function"]) :=
  ⟨⟨by decide +kernel, by rfl, exists_ok (by decide +kernel)⟩,
    ⟨by decide +kernel, by rfl, exists_ok (by decide +kernel)⟩⟩

end Transform

end QirProfile
