import QirProfile.Proofs.Program.Edits
import QirProfile.Proofs.Transform.Expand
import QirProfile.Proofs.Tweaks

/-!
# Copies of entry points are entry points

When calls get copies, no function that there was changes but for its blocks, and a copy has all of
its source but its name, the parameters with a value of their own, and its blocks. So it has the
attributes of its source, and a copy of an entry point is one more entry point. Nothing else is.
-/

namespace QirProfile

open Program

variable {p q r : Program}

/-! ## 1. Edits that leave the functions alone -/

namespace Program

/-- The functions are the same, and hold the same blocks. -/
def SameFunctions (p q : Program) : Prop := q.functions = p.functions

instance : IsPreorder Program SameFunctions where
  refl _ := rfl
  trans _ _ _ h₁ h₂ := Eq.trans h₂ h₁

theorem SameFunctions.func (h : p.SameFunctions q) (f : FuncId) : q.func f = p.func f := by
  rw [Program.func, Program.func, h]

theorem sameFunctions_eraseInstr {id : InstrId} (h : p.eraseInstr id = .ok q) : p.SameFunctions q :=
  (sameTop_eraseInstr h).1

theorem sameFunctions_insertBeside {anchor id : InstrId} {offset : Nat}
    (h : p.insertBeside anchor id offset = .ok q) : p.SameFunctions q :=
  (sameTop_insertBeside h).1

theorem sameFunctions_insert (anchor : InstrId) (draft : Edit.Draft) :
    Keeps SameFunctions (Edit.insert (.before anchor) draft) := fun p a q h =>
  ((sameTop_insert (.before anchor) draft).keeps p a q h).1

theorem sameFunctions_setKind {id : InstrId} {kind : InstrKind} (h : p.setKind id kind = .ok q) :
    p.SameFunctions q :=
  (sameTop_setKind h).1

theorem sameFunctions_deleteInstr {id : InstrId} (h : p.deleteInstr id = .ok q) :
    p.SameFunctions q := by
  have hkept := sameFunctions_eraseInstr h
  unfold SameFunctions at hkept ⊢
  rw [hkept]
  split <;> rfl

theorem sameFunctions_replaceOne {change : Replacement} (h : p.replaceOne change = .ok q) :
    p.SameFunctions q := by
  unfold replaceOne at h
  split at h
  · rename_i new _
    obtain ⟨r, hinsert, herase⟩ := replaceInstr_ok.mp h
    calc q.functions
      _ = ((r.takeName change.old new).replaceUses (.instr change.old) (.instr new)).functions :=
        sameFunctions_eraseInstr herase
      _ = p.functions := sameFunctions_insertBeside (q := r) hinsert
  · exact sameFunctions_deleteInstr h

theorem sameFunctions_replaceEach (rs : List Replacement) :
    Keeps SameFunctions (replaceEach rs) := by
  induction rs with
  | nil => exact keeps_pure _
  | cons change rs ih =>
    unfold replaceEach
    refine keeps_bind keeps_get fun p => ?_
    split
    · exact ih
    · refine keeps_bind (always_attempt (R := SameFunctions) fun _ _ h =>
        sameFunctions_replaceOne h).keeps fun _ => ?_
      exact keeps_bind ih fun _ => keeps_pure _

theorem sameFunctions_cutEdge {b source : BlockId} (h : p.cutEdge b source = .ok q) :
    p.SameFunctions q := by
  unfold cutEdge at h
  split at h
  · cases h
    rfl
  clear * - h
  generalize (p.block b).instrs = ids at h
  induction ids generalizing p with
  | nil =>
    cases h
    rfl
  | cons id ids ih =>
    rw [List.foldlM_cons] at h
    obtain ⟨p₁, hstep, h⟩ := except_bind_ok.mp h
    refine (ih h).trans ?_
    split at hstep
    · obtain ⟨_, -, hstep⟩ := except_bind_ok.mp hstep
      cases hstep
      rfl
    · cases hstep
      rfl

theorem sameFunctions_foldConstants {f : FuncId} {n : Nat}
    (h : p.foldConstants f = .ok (q, n)) : p.SameFunctions q :=
  foldConstants_keeps (R := SameFunctions) (fun _ _ _ _ _ haway =>
    sameFunctions_eraseInstr (p := Program.replaceUses _ _ _) haway) h

end Program

/-! ## 2. Folding -/

namespace Replacing

variable {σ : Type} {P : ∀ {α : Type}, Replacing σ α → Prop}

theorem sequential_applyFirst (hP : Sequential P) {rules : List (Rule σ)} {id : InstrId}
    (hforget : ∀ n, P (modify fun s : RuleState σ => { s with scheduled := s.scheduled.take n }))
    (hrules : ∀ r ∈ rules, ∀ f, r.replacer = some f → ∀ c, P (f id c)) :
    P (applyFirst rules id) := by
  have hprogram : P (program : Replacing σ Program) := hP.bind hP.get fun _ => hP.pure _
  unfold applyFirst
  refine hP.bind hprogram fun p => ?_
  split
  · exact hP.pure _
  induction rules with
  | nil => exact hP.pure _
  | cons r rules ih =>
    have hrest := ih fun r' hr' => hrules r' (List.mem_cons_of_mem r hr')
    unfold firstAccepting
    refine hP.bind hprogram fun p => ?_
    split
    · exact hrest
    · rename_i c _
      refine hP.bind ?_ fun accepted => ?_
      · unfold offer
        split
        · exact hP.pure _
        · rename_i f hf
          refine hP.bind hP.get fun s => hP.bind (hrules r List.mem_cons_self f hf c) fun b => ?_
          split
          · exact hP.pure _
          · exact hP.bind (hforget _) fun _ => hP.pure _
      · split
        · exact hP.pure _
        · exact hrest

theorem controlFlowRules_sameFunctions {e : Bool} {id : InstrId} {r : Rule Unit}
    (hr : r ∈ controlFlowRules e) {f : Replacer Unit} (hf : r.replacer = some f) (c : Captures) :
    Keeps (Order.Preimage RuleState.program SameFunctions) (f id c) := by
  have hseq : Sequential (fun {α} => Keeps (ε := CompileError) (α := α)
      (Order.Preimage (RuleState.program (σ := Unit)) SameFunctions)) := sequential_keeps
  have hedit : ∀ {α : Type} {x : Edit α}, Keeps SameFunctions x →
      Keeps (Order.Preimage (RuleState.program (σ := Unit)) SameFunctions) (edit x) := by
    intro α x hx s a s' h
    obtain ⟨q, hq, rfl⟩ := edit_ok.mp h
    exact hx _ _ _ hq
  have hcut : ∀ b source, Keeps SameFunctions (Edit.attempt (·.cutEdge b source)) := fun _ _ =>
    (always_attempt (R := SameFunctions) fun _ _ h => sameFunctions_cutEdge h).keeps
  have hprogram : Keeps (Order.Preimage (RuleState.program (σ := Unit)) SameFunctions) program :=
    hseq.bind hseq.get fun _ => hseq.pure _
  have haccept : Keeps (Order.Preimage (RuleState.program (σ := Unit)) SameFunctions)
      (do
        scheduleDelete id
        return true) := by
    intro s _ s' h
    cases h
    rfl
  unfold controlFlowRules at hr
  rcases List.mem_cons.mp hr with rfl | hr
  · cases hf
    unfold settleBranch
    split
    · refine hseq.bind (hedit (sameFunctions_insert _ _)) fun _ => ?_
      dsimp only
      split
      · exact hseq.bind hprogram fun q => hseq.bind
          (hseq.optionForM (fun source => hedit (hcut _ source)) _) fun _ => haccept
      · exact haccept
    · exact hseq.pure _
  · split at hr
    · obtain rfl := List.mem_singleton.mp hr
      cases hf
      unfold invokeToCall
      refine hseq.bind hprogram fun q => ?_
      dsimp only
      split
      · refine hseq.bind hprogram fun q => hseq.bind (hedit (sameFunctions_insert _ _)) fun _ => ?_
        refine hseq.bind (hedit (sameFunctions_insert _ _)) fun _ => ?_
        refine hseq.bind (fun s _ s' h => ?_) fun _ => ?_
        · obtain rfl := modify_ok h
          rfl
        split
        · exact hseq.bind (hseq.optionForM (fun source => hedit (hcut _ source)) _) fun _ => haccept
        · exact haccept
      · exact hseq.pure _
    · cases hr

end Replacing

theorem foldControlFlow_functions (e : Bool) (f : FuncId) :
    Keeps SameFunctions (foldControlFlow (Replacing.controlFlowRules e) f) := by
  have hschedule : ∀ ids, Keeps SameFunctions
      (scheduleAll (Replacing.controlFlowRules e) ids) := by
    intro ids p rs q h
    unfold scheduleAll at h
    dsimp only at h
    split at h
    · rename_i s hall
      cases h
      have hseq : Sequential (fun {α} => Keeps (ε := CompileError) (α := α)
          (Order.Preimage (RuleState.program (σ := Unit)) SameFunctions)) := sequential_keeps
      refine hseq.forM (fun id => hseq.discard (Replacing.sequential_applyFirst hseq ?_ ?_)) ids _ _ _
        hall
      · intro n s _ s' h
        obtain rfl := modify_ok h
        rfl
      · exact fun r hr f hf c => Replacing.controlFlowRules_sameFunctions hr hf c
    · cases h
  have hcarry : ∀ rs, Keeps SameFunctions (carryOut rs) := by
    intro rs p n q h
    unfold carryOut at h
    cases hrepeated : firstRepeated? [] (rs.map (·.old)) with
    | some id =>
      rw [hrepeated] at h
      cases h
    | none =>
      rw [hrepeated] at h
      exact sameFunctions_replaceEach _ _ _ _ (compileEdit_ok.mp h)
  have hrounds : ∀ fuel, Keeps SameFunctions (foldRounds (Replacing.controlFlowRules e) f fuel) := by
    intro fuel
    induction fuel with
    | zero => exact keeps_pure _
    | succ fuel ih =>
      unfold QirProfile.foldRounds
      refine keeps_bind (fun p n q h => ?_) fun folded => ?_
      · exact sameFunctions_foldConstants (Transform.tryMake_ok.mp (compileEdit_ok.mp h))
      refine keeps_bind keeps_get fun p => keeps_bind (hschedule _) fun rs => ?_
      split
      · exact keeps_pure _
      · exact keeps_bind (hcarry rs) fun _ => keeps_bind ih fun _ => keeps_pure _
  unfold foldControlFlow
  exact keeps_bind keeps_get fun p => hrounds _

/-! ## 3. What copies were made -/

/-- What a function is but for its blocks. It may have been erased. -/
def Func.heading (f : Func) : Func := { f with blocks := [], erased := false }

theorem Func.hasAttribute_of_heading {f g : Func} (h : f.heading = g.heading) (key : String) :
    f.hasAttribute key = g.hasAttribute key := by
  have hattributes : f.heading.attributes = g.heading.attributes := by rw [h]
  exact congrArg (·.any (·.key == key)) hattributes

/-- A function `c` that was made as a copy of `f`: it has a name of its own and has lost the
    parameters that got a value. -/
structure Func.IsCopy (c f : Func) : Prop where
  name : ∃ k : Nat, c.name = f.name ++ "." ++ toString k
  params : c.params.Sublist f.params
  ret : c.ret = f.ret
  varArg : c.varArg = f.varArg
  linkage : c.linkage = f.linkage
  unnamedAddr : c.unnamedAddr = f.unnamedAddr
  attributes : c.attributes = f.attributes

theorem Func.isCopy_heading {c f : Func} : c.heading.IsCopy f.heading ↔ c.IsCopy f :=
  ⟨fun h => ⟨h.name, h.params, h.ret, h.varArg, h.linkage, h.unnamedAddr, h.attributes⟩,
    fun h => ⟨h.name, h.params, h.ret, h.varArg, h.linkage, h.unnamedAddr, h.attributes⟩⟩

theorem Func.IsCopy.of_heading {c f c' f' : Func} (h : c.IsCopy f) (hc : c'.heading = c.heading)
    (hf : f'.heading = f.heading) : c'.IsCopy f' := by
  rw [← isCopy_heading, hc, hf]
  exact isCopy_heading.mpr h

theorem Func.IsCopy.hasAttribute {c f : Func} (h : c.IsCopy f) (key : String) :
    c.hasAttribute key = f.hasAttribute key := by
  rw [Func.hasAttribute, Func.hasAttribute, h.attributes]

theorem Program.freshFunctionName_of_live {f : FuncId} (h : (p.func f).erased = false) :
    ∃ k : Nat, p.freshFunctionName (p.func f).name = (p.func f).name ++ "." ++ toString k := by
  have htaken : p.takenNames.contains (p.func f).name = true :=
    List.contains_iff_mem.mpr
      (List.mem_append_left _ (List.mem_map.mpr ⟨f, mem_liveFunctions.mpr h, rfl⟩))
  have hfresh : ∀ (base : String) (fuel n : Nat) (taken : List String),
      ∃ k : Nat, freshName base fuel n taken = base ++ "." ++ toString k := by
    intro base fuel
    induction fuel with
    | zero => exact fun n _ => ⟨n, rfl⟩
    | succ fuel ih =>
      intro n taken
      simp only [freshName]
      split
      · exact ih (n + 1) _
      · exact ⟨n, rfl⟩
  unfold freshFunctionName
  rw [if_pos htaken]
  exact hfresh _ _ 1 _

theorem Program.func_lt_of_hasAttribute {f : FuncId} {key : String}
    (h : (p.func f).hasAttribute key = true) : f.index < p.functions.size := by
  by_contra hge
  rw [func_of_le (Nat.not_lt.mp hge)] at h
  cases h

/-- From `p` to `q` these functions were copied, each with the handle of its copy. The functions that
    there were keep their headings, and with the attribute none of them and none of their copies is
    erased. -/
structure Copied (attr : String) (copies : List (FuncId × FuncId)) (p q : Program) : Prop where
  size : q.functions.size = p.functions.size + copies.length
  made : copies.map Prod.snd = (List.range' p.functions.size copies.length).map FuncId.mk
  headings : ∀ f : FuncId, f.index < p.functions.size → (q.func f).heading = (p.func f).heading
  spared : ∀ f, (p.func f).hasAttribute attr = true → (q.func f).erased = (p.func f).erased
  origins : ∀ x ∈ copies, x.1.index < x.2.index ∧ (q.func x.2).IsCopy (q.func x.1)
  live : ∀ x ∈ copies, (q.func x.1).hasAttribute attr = true → (q.func x.2).erased = false

namespace Copied

variable {attr : String} {cs ds : List (FuncId × FuncId)}

theorem of_functions (h : p.SameFunctions q) : Copied attr [] p q := by
  refine ⟨congrArg Array.size h, rfl, fun f _ => ?_, fun f _ => ?_, List.forall_mem_nil _,
    List.forall_mem_nil _⟩
  · rw [h.func]
  · rw [h.func]

theorem index_lt (h : Copied attr cs p q) {x : FuncId × FuncId} (hx : x ∈ cs) :
    x.1.index < x.2.index ∧ x.2.index < q.functions.size := by
  have hmem : x.2 ∈ cs.map Prod.snd := List.mem_map_of_mem hx
  rw [h.made] at hmem
  obtain ⟨k, hk, heq⟩ := List.mem_map.mp hmem
  rw [List.mem_range'_1] at hk
  have hindex : x.2.index = k := congrArg FuncId.index heq.symm
  have := h.size
  exact ⟨(h.origins x hx).1, by omega⟩

theorem trans (h₁ : Copied attr cs p q) (h₂ : Copied attr ds q r) :
    Copied attr (cs ++ ds) p r := by
  have hsize : p.functions.size ≤ q.functions.size := by
    have := h₁.size
    omega
  -- what a copy of the first part has become in the second
  have hkept : ∀ x ∈ cs, (r.func x.1).heading = (q.func x.1).heading ∧
      (r.func x.2).heading = (q.func x.2).heading := by
    intro x hx
    obtain ⟨hlt, hlt'⟩ := h₁.index_lt hx
    exact ⟨h₂.headings x.1 (Nat.lt_trans hlt hlt'), h₂.headings x.2 hlt'⟩
  refine ⟨?_, ?_, fun f hf => ?_, fun f hf => ?_, fun x hx => ?_, fun x hx hattr => ?_⟩
  · rw [h₂.size, h₁.size, List.length_append, Nat.add_assoc]
  · rw [List.map_append, h₁.made, h₂.made, h₁.size, List.length_append, ← List.map_append]
    congr 1
    exact List.range'_append_1
  · exact (h₂.headings f (Nat.lt_of_lt_of_le hf hsize)).trans (h₁.headings f hf)
  · have hattr : (q.func f).hasAttribute attr = true := by
      rw [Func.hasAttribute_of_heading (h₁.headings f (func_lt_of_hasAttribute hf))]
      exact hf
    rw [h₂.spared f hattr, h₁.spared f hf]
  · rcases List.mem_append.mp hx with hx | hx
    · obtain ⟨hsource, hcopy⟩ := hkept x hx
      exact ⟨(h₁.origins x hx).1, (h₁.origins x hx).2.of_heading hcopy hsource⟩
    · exact h₂.origins x hx
  · rcases List.mem_append.mp hx with hx | hx
    · obtain ⟨hsource, hcopy⟩ := hkept x hx
      rw [Func.hasAttribute_of_heading hsource] at hattr
      have hattr' : (q.func x.2).hasAttribute attr = true := by
        rw [(h₁.origins x hx).2.hasAttribute]
        exact hattr
      rw [h₂.spared x.2 hattr']
      exact h₁.live x hx hattr
    · exact h₂.live x hx hattr

theorem functionsWithAttribute (h : Copied attr cs p q) :
    q.functionsWithAttribute attr = p.functionsWithAttribute attr ++
      (cs.filter fun x => (q.func x.1).hasAttribute attr).map Prod.snd := by
  have hrange : (List.range q.functions.size).map FuncId.mk =
      (List.range p.functions.size).map FuncId.mk ++ cs.map Prod.snd := by
    have happend := @List.range'_append_1 0 p.functions.size cs.length
    rw [Nat.zero_add] at happend
    rw [h.made, h.size, List.range_eq_range', List.range_eq_range', ← happend, List.map_append]
  unfold Program.functionsWithAttribute liveFunctions
  rw [hrange, List.filter_append, List.filter_append, List.filter_filter, List.filter_filter,
    List.filter_filter, List.filter_map (l := cs)]
  congr 1
  · refine List.filter_congr fun f hf => ?_
    obtain ⟨k, hk, rfl⟩ := List.mem_map.mp hf
    have hsame := Func.hasAttribute_of_heading (h.headings ⟨k⟩ (List.mem_range.mp hk)) attr
    cases hattr : (p.func ⟨k⟩).hasAttribute attr with
    | false => rw [hsame, hattr, Bool.false_and, Bool.false_and]
    | true => rw [hsame, hattr, h.spared ⟨k⟩ hattr]
  · congr 1
    refine List.filter_congr fun x hx => ?_
    show ((q.func x.2).hasAttribute attr && !(q.func x.2).erased) = (q.func x.1).hasAttribute attr
    rw [(h.origins x hx).2.hasAttribute]
    cases hattr : (q.func x.1).hasAttribute attr with
    | false => rfl
    | true => rw [h.live x hx hattr]; rfl

end Copied

/-! ## 4. Copies in a walk -/

namespace Transform

variable {s : TransformSettings} {attr : String}

theorem copied_specialise {source c : FuncId} {constants : List (Nat × Value)}
    (h : p.specialise source constants = .ok (q, c)) : Copied attr [(source, c)] p q := by
  obtain ⟨hlive, -, rfl, rfl⟩ := specialise_ok.mp h
  have hlt := func_lt_of_live hlive
  have hold : ∀ f : FuncId, f.index < p.functions.size →
      (p.withCopy source constants).func f = p.func f := fun f hf => by
    rw [func_withCopy, if_neg (Nat.ne_of_lt hf)]
  have hcopy : (p.withCopy source constants).func ⟨p.functions.size⟩ = p.copyFunc source constants := by
    rw [func_withCopy, if_pos rfl]
  refine ⟨Array.size_push .., rfl, fun f hf => by rw [hold f hf], fun f hf => ?_, ?_, ?_⟩
  · rw [hold f (func_lt_of_hasAttribute hf)]
  · rintro x hx
    obtain rfl := List.mem_singleton.mp hx
    refine ⟨hlt, ?_⟩
    rw [hcopy, hold source hlt]
    refine ⟨freshFunctionName_of_live hlive, ?_, rfl, rfl, rfl, rfl, rfl⟩
    have hkept := (List.filter_sublist (p := fun x : Param × Nat => (givenFor? constants x.2).isNone)
      (l := (p.func source).params.zipIdx)).map Prod.fst
    rwa [List.zipIdx_map_fst] at hkept
  · rintro x hx -
    obtain rfl := List.mem_singleton.mp hx
    rw [hcopy]
    exact hlive

theorem copied_eraseBlock {b : BlockId} (h : p.eraseBlock b = .ok q) : Copied attr [] p q := by
  obtain ⟨-, rfl⟩ := eraseBlock_ok.mp h
  have hfunc : ∀ f, ((p.dropBlock b).func f).heading = (p.func f).heading ∧
      ((p.dropBlock b).func f).erased = (p.func f).erased := by
    intro f
    rw [func_dropBlock]
    split <;> exact ⟨rfl, rfl⟩
  exact ⟨(sizes_dropBlock p b).1, rfl, fun f _ => (hfunc f).1, fun f _ => (hfunc f).2, nofun, nofun⟩

theorem copied_eraseFunction {g : FuncId} (hplain : (p.func g).hasAttribute attr = false)
    (h : p.eraseFunction g = .ok q) : Copied attr [] p q := by
  have hblocks : ∀ (bs : List BlockId) (p q : Program), bs.foldlM eraseBlock p = .ok q →
      Copied attr [] p q := by
    intro bs
    induction bs with
    | nil =>
      rintro p _ ⟨⟩
      exact .of_functions rfl
    | cons b bs ih =>
      intro p q h
      rw [List.foldlM_cons] at h
      obtain ⟨p₁, hfirst, hrest⟩ := except_bind_ok.mp h
      exact (copied_eraseBlock hfirst).trans (ih p₁ q hrest)
  unfold eraseFunction at h
  dsimp only at h
  split at h
  · cases h
  obtain ⟨p₁, hbody, h⟩ := except_bind_ok.mp h
  cases h
  have hfirst := hblocks _ _ _ hbody
  have hlast : Copied attr [] p₁ (p₁.updateFunc g ({ · with erased := true })) := by
    refine ⟨Array.size_modify, rfl, fun f _ => ?_, fun f hf => ?_, nofun, nofun⟩
    · rw [func_updateFunc]
      split <;> rfl
    · have hne : g ≠ f := by
        rintro rfl
        by_cases hlt : g.index < p.functions.size
        · rw [Func.hasAttribute_of_heading (hfirst.headings g hlt), hplain] at hf
          cases hf
        · rw [func_of_le (by rw [hfirst.size]; exact Nat.le_of_not_lt hlt)] at hf
          cases hf
      rw [func_updateFunc_ne hne]
  exact hfirst.trans hlast

/-- From one state of the walk to the next so many functions were copied as the visitor has counted. -/
def Copies (attr : String) (t t' : PathState Nat) : Prop :=
  ∃ cs, t'.extra = t.extra + cs.length ∧ Copied attr cs t.program t'.program

instance : IsPreorder (PathState Nat) (Copies attr) where
  refl _ := ⟨[], rfl, .of_functions rfl⟩
  trans _ _ _ := by
    rintro ⟨cs, hcs, h₁⟩ ⟨ds, hds, h₂⟩
    refine ⟨cs ++ ds, ?_, h₁.trans h₂⟩
    rw [hds, hcs, List.length_append, Nat.add_assoc]

theorem copies_specialiseCall (v : Value) : Keeps (Copies s.entryPointAttr) (specialiseCall s v) := by
  intro t current t' h
  cases v with
  | instr id =>
    rcases specialiseCall_cases h with ⟨-, -, rfl⟩ |
      ⟨marker, g, c, call, p₁, p₂, p₃, p₄, q, n, -, hcopy, hinsert, hkind, hfold, hspent, -, rfl⟩
    · exact refl_of (Copies _) _
    have hkept : p₁.SameFunctions p₄ := by
      have hturned : p₁.SameFunctions p₃ := calc p₃.functions
        _ = p₂.functions := sameFunctions_setKind (p := p₂.takeName id call) hkind
        _ = p₁.functions := sameFunctions_insert _ _ _ _ _ hinsert
      exact (foldControlFlow_functions _ _ _ _ _ hfold).trans hturned
    have hcopied : Copied s.entryPointAttr [(g, c)] t.program p₄ :=
      (copied_specialise hcopy).trans (.of_functions hkept)
    refine ⟨[(g, c)], rfl, ?_⟩
    rcases hspent with rfl | ⟨-, hplain, herase⟩
    · exact hcopied
    · exact hcopied.trans (copied_eraseFunction hplain herase)
  | _ =>
    obtain ⟨-, rfl⟩ := pure_ok h
    exact refl_of (Copies _) _

theorem copies_eraseDoomed (ids : List InstrId) :
    Keeps (Copies attr) (Walk.eraseDoomed ids : Walk Nat Unit) := by
  induction ids with
  | nil => exact keeps_pure _
  | cons id ids ih =>
    unfold Walk.eraseDoomed
    refine keeps_bind (Walk.sequential_program sequential_keeps) fun p => ?_
    split
    · exact ih
    · refine keeps_bind (fun t u t' h => ?_) fun _ => ih
      obtain ⟨q, hdrop, rfl⟩ := walkEdit_ok.mp h
      exact ⟨[], rfl, .of_functions (sameFunctions_eraseInstr (attempt_ok.mp hdrop))⟩

theorem walkRelation_copies : WalkRelation (Copies attr) where
  preorder := inferInstance
  leave {_ t _ _} hkept herase := by
    have hleft := trans_of (Copies attr) hkept (copies_eraseDoomed t.doomed _ _ _ herase)
    exact hleft

theorem keeps_expandEntries {R : PathState Nat → PathState Nat → Prop} (hR : WalkRelation R)
    (hfold : ∀ entry, Keeps R (Walk.compile
      (foldControlFlow (Replacing.controlFlowRules s.assumeNoExcept) entry)))
    (hcall : ∀ v, Keeps R (specialiseCall s v)) (entries : List FuncId) :
    Keeps R (expandEntries s entries) := by
  have := hR.preorder
  induction entries with
  | nil => exact keeps_pure _
  | cons entry entries ih =>
    refine keeps_bind (hfold entry) fun _ => keeps_bind ?_ fun _ => ih
    refine Walk.walkWithin_keepsLeaving hR (fun f => hcall _) (fun follow hfollow f => ?_) _ entry
    refine Walk.sequential_visitBlock sequential_keeps (fun b => hcall _) ?_
    exact Walk.sequential_visitInstr sequential_keeps (fun _ => (always_throw _).keeps) hcall
      hfollow f

theorem copies_expandEntries (entries : List FuncId) :
    Keeps (Copies s.entryPointAttr) (expandEntries s entries) := by
  refine keeps_expandEntries walkRelation_copies (fun entry t n t' h => ?_)
    copies_specialiseCall entries
  obtain ⟨q, hfold, rfl⟩ := walkCompile_ok.mp h
  exact ⟨[], rfl, .of_functions (foldControlFlow_functions _ _ _ _ _ hfold)⟩

/-- A copy has the attributes of its source, so the entry points are those that there were and their
    copies. -/
theorem specialiseCalls_entryPoints {n : Nat} (h : specialiseCalls s p = .ok n q) :
    ∃ copies : List (FuncId × FuncId), copies.length = n ∧
      copies.map Prod.snd = (List.range' p.functions.size n).map FuncId.mk ∧
      (∀ x ∈ copies, x.1.index < x.2.index ∧ (q.func x.2).IsCopy (q.func x.1)) ∧
      (∀ f : FuncId, f.index < p.functions.size → (q.func f).heading = (p.func f).heading) ∧
      s.entryPoints q = s.entryPoints p ++
        (copies.filter fun x => (q.func x.1).hasAttribute s.entryPointAttr).map Prod.snd ∧
      (s.entryPoints q = s.entryPoints p ↔
        ∀ x ∈ copies, (q.func x.1).hasAttribute s.entryPointAttr = false) := by
  unfold specialiseCalls at h
  split at h
  · rename_i t hexpand
    cases h
    obtain ⟨copies, hcount, hcopied⟩ := copies_expandEntries _ _ _ _ hexpand
    have hlength : copies.length = t.extra := by
      rw [hcount]
      exact (Nat.zero_add _).symm
    have hentries := hcopied.functionsWithAttribute
    refine ⟨copies, hlength, hlength ▸ hcopied.made, hcopied.origins, hcopied.headings, hentries, ?_⟩
    show t.program.functionsWithAttribute _ = p.functionsWithAttribute _ ↔ _
    rw [hentries, List.append_right_eq_self, List.map_eq_nil_iff, List.filter_eq_nil_iff]
    simp only [Bool.not_eq_true]
  · cases h

theorem specialiseCalls_entryPoints_looping :
    ∃ n q, specialiseCalls { maxRecursion := 2 } looping = .ok n q ∧
      (∃ copies : List (FuncId × FuncId), copies.map Prod.snd = [⟨2⟩, ⟨3⟩] ∧
        ∀ x ∈ copies, (q.func x.1).hasAttribute "EntryPoint" = false) ∧
      ({ maxRecursion := 2 } : TransformSettings).entryPoints q = [⟨0⟩] := by
  obtain ⟨n, q, hrun, rfl, hentries⟩ := exists_answer
    (r := specialiseCalls { maxRecursion := 2 } looping)
    (P := fun n q => n = 2 ∧ ({ maxRecursion := 2 } : TransformSettings).entryPoints q = [⟨0⟩])
    (by decide +kernel)
  obtain ⟨copies, -, hmade, -, -, -, hsame⟩ := specialiseCalls_entryPoints hrun
  exact ⟨2, q, hrun, ⟨copies, hmade, hsame.mp (hentries.trans (by decide +kernel))⟩, hentries⟩

/-- An entry point that calls itself. -/
def selfCalling : Program where
  name := "selfCalling"
  functions := #[⟨"Main", .void, [], false, none, none, [.pair "EntryPoint" none], [⟨0⟩], false⟩]
  blocks := #[⟨some "entry", some ⟨0⟩, [⟨0⟩, ⟨1⟩], false⟩]
  instrs := #[
    ⟨.call .none, .void, [.func ⟨0⟩], none, some ⟨0⟩, false⟩,
    ⟨.ret, .void, [], none, some ⟨0⟩, false⟩]

/-- A copy of an entry point that calls itself is an entry point. -/
theorem entryPoints_selfCalling :
    selfCalling.Sound ∧ selfCalling.verify = .ok () ∧
      ({ maxRecursion := 1 } : TransformSettings).entryPoints selfCalling = [⟨0⟩] ∧
      ∃ n q, specialiseCalls { maxRecursion := 1 } selfCalling = .ok n q ∧ q.verify = .ok () ∧
        ({ maxRecursion := 1 } : TransformSettings).entryPoints q = [⟨0⟩, ⟨1⟩] :=
  ⟨by decide +kernel, by rfl, by decide +kernel, exists_ok (by decide +kernel)⟩

end Transform

end QirProfile
