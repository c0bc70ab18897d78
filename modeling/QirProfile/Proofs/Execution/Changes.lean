import Mathlib.Data.List.TakeWhile
import QirProfile.Proofs.Execution.Basic

/-!
# Changes that a run does not notice

Folding control flow is made of four changes. Each of them has a mirror: what the changed program does
is what the program did, instruction for instruction.
-/

namespace QirProfile

variable {source : Option BlockId} {g : Value → Value} {a new call t : InstrId} {c normal : BlockId}
  {i : Instr} {f callee : FuncId} {d : Edit.Draft}

/-! ## 1. Instructions that do the same -/

namespace Instr

variable {V : Type} {w : World V} {R R' : Registers V} {i j : Instr} {g : Value → Value}

theorem callee?_map (hkind : j.kind = i.kind) (hoperands : j.operands = i.operands.map g) :
    j.callee? = i.callee?.map g := by
  have hcalls : (j.isCall || j.isInvoke) = (i.isCall || i.isInvoke) := by
    unfold isCall isInvoke
    rw [hkind]
  unfold callee?
  rw [hcalls, hoperands, List.getLast?_map]
  split <;> rfl

theorem arguments_map (hkind : j.kind = i.kind) (hoperands : j.operands = i.operands.map g) :
    j.arguments = i.arguments.map g := by
  unfold arguments
  rw [hkind, hoperands, List.length_map]
  split
  · exact List.map_take.symm
  · exact List.map_take.symm
  · rfl

theorem mem_of_callee? {v : Value} (h : i.callee? = some v) : v ∈ i.operands := by
  unfold callee? at h
  split at h
  · exact List.mem_of_getLast? h
  · cases h

theorem deed_map (hkind : j.kind = i.kind) (hty : j.ty = i.ty)
    (hoperands : j.operands = i.operands.map g)
    (hg : ∀ v ∈ i.operands, w.eval R' (g v) = w.eval R v) : j.deed w R' = i.deed w R := by
  have hall : ∀ vs ⊆ i.operands, (vs.map g).map (w.eval R') = vs.map (w.eval R) := by
    intro vs hvs
    rw [List.map_map]
    exact List.map_congr_left fun v hv => hg v (hvs hv)
  have hvisible : j.arguments ++ j.callee?.toList = (i.arguments ++ i.callee?.toList).map g := by
    rw [arguments_map hkind hoperands, callee?_map hkind hoperands, List.map_append]
    cases i.callee? <;> rfl
  have hsub : i.arguments ++ i.callee?.toList ⊆ i.operands := by
    intro v hv
    rcases List.mem_append.mp hv with hv | hv
    · exact Replacing.mem_of_arguments hv
    · exact mem_of_callee? (Option.mem_toList.mp hv)
  unfold deed
  rw [hkind, hty, hvisible, hoperands, hall _ hsub, hall _ fun _ h => h]

theorem received_map (hkind : j.kind = i.kind)
    (hoperands : j.operands = i.operands.map g)
    (hg : ∀ v ∈ i.operands, w.eval R' (g v) = w.eval R v) :
    j.received w R' source = i.received w R source := by
  have hblocks : j.phiBlocks = i.phiBlocks := by
    unfold phiBlocks
    rw [hkind]
  unfold received
  rw [hblocks, hoperands]
  cases source with
  | none => rfl
  | some b =>
    simp only [Option.bind_some, List.zip_map_left, List.find?_map]
    have hsame : ((fun entry : Value × BlockId => entry.2 == b) ∘ Prod.map g id) =
        fun entry => entry.2 == b := rfl
    rw [hsame]
    cases hfind : (i.operands.zip i.phiBlocks).find? fun entry => entry.2 == b with
    | none => rfl
    | some entry =>
      have hmem := List.of_mem_zip (List.mem_of_find?_eq_some hfind)
      exact hg entry.1 hmem.1

theorem received_of_kind (h : ∀ blocks, i.kind ≠ .phi blocks) :
    i.received w R source = w.undefined := by
  have hblocks : i.phiBlocks = [] := by
    unfold phiBlocks
    split
    · exact absurd ‹_› (h _)
    · rfl
  unfold received
  rw [hblocks, List.zip_nil_right]
  cases source <;> rfl

theorem branchTo_map {vs : List Value} (hg : ∀ v ∈ vs, w.eval R' (g v) = w.eval R v)
    (hblock : ∀ v ∈ vs, (g v).toBlock? = v.toBlock?) :
    branchTo w R' (vs.map g) = branchTo w R vs := by
  rcases vs with _ | ⟨a, _ | ⟨b, _ | ⟨c, _ | ⟨d, rest⟩⟩⟩⟩
  all_goals simp_all [branchTo]

theorem caseOf_map {v : V} {other : Option BlockId} :
    (vs : List Value) → (∀ u ∈ vs, w.eval R' (g u) = w.eval R u) →
      (∀ u ∈ vs, (g u).toBlock? = u.toBlock?) →
      caseOf w R' v other (vs.map g) = caseOf w R v other vs
  | [], _, _ | [_], _, _ => rfl
  | key :: target :: rest, hg, hblock => by
    simp only [List.map_cons, caseOf]
    rw [hg key (by simp), hblock target (by simp),
      caseOf_map rest (fun u hu => hg u (by simp [hu])) fun u hu => hblock u (by simp [hu])]

theorem switchTo_map {vs : List Value} (hg : ∀ v ∈ vs, w.eval R' (g v) = w.eval R v)
    (hblock : ∀ v ∈ vs, (g v).toBlock? = v.toBlock?) :
    switchTo w R' (vs.map g) = switchTo w R vs := by
  rcases vs with _ | ⟨a, _ | ⟨b, rest⟩⟩
  · rfl
  · rfl
  · simp only [List.map_cons, switchTo]
    rw [hg a (by simp), hblock b (by simp),
      caseOf_map rest (fun u hu => hg u (by simp [hu])) fun u hu => hblock u (by simp [hu])]

theorem goesTo_map (hkind : j.kind = i.kind) (hoperands : j.operands = i.operands.map g)
    (hg : ∀ v ∈ i.operands, w.eval R' (g v) = w.eval R v)
    (hblock : ∀ v, (g v).toBlock? = v.toBlock?) : j.goesTo w R' = i.goesTo w R := by
  unfold goesTo
  rw [hkind, hoperands, branchTo_map hg fun v _ => hblock v, switchTo_map hg fun v _ => hblock v,
    invokeDestinations?_map hkind hoperands hblock]

end Instr

namespace Program

variable {V : Type} {w : World V} {E : Registers V → Registers V → Prop} {source : Option BlockId}
  {i j : Instr}

theorem alike_map (hkind : j.kind = i.kind) (hty : j.ty = i.ty)
    (hoperands : j.operands = i.operands.map g)
    (hg : ∀ v ∈ i.operands, ∀ R R', E R R' → w.eval R' (g v) = w.eval R v) :
    Alike w E source i j where
  branch := by rw [hkind]
  phi := by rw [Instr.isPhi, Instr.isPhi, hkind]
  ty _ := hty
  deed _ _ R R' hR := Instr.deed_map hkind hty hoperands fun v hv => hg v hv R R' hR
  received R R' hR := Instr.received_map hkind hoperands fun v hv => hg v hv R R' hR

theorem alike_refl (i : Instr) : Alike w Eq source i i :=
  alike_map (g := id) rfl rfl (List.map_id _).symm fun _ _ _ _ hR => by rw [hR, id]

theorem alike_branch (hi : i.kind = .br) (hj : j.kind = .br) : Alike w E source i j where
  branch := iff_of_true hj hi
  phi := by rw [Instr.isPhi, Instr.isPhi, hi, hj]
  ty hphi := by
    rw [Instr.isPhi, hi] at hphi
    cases hphi
  deed hne := absurd hi hne
  received R R' _ := by
    rw [Instr.received_of_kind fun blocks h => InstrKind.noConfusion (hj.symm.trans h),
      Instr.received_of_kind fun blocks h => InstrKind.noConfusion (hi.symm.trans h)]

theorem settable_eq (a : InstrId) : Settable (V := V) id Eq a := by
  rintro R R' v rfl
  rfl

/-! ## 2. Where blocks are left -/

variable {p q : Program} {b : BlockId} {front back : List InstrId} {e : InstrId}

theorem Sound.not_mem_beside (hp : p.Sound) (hb : (p.block b).instrs = front ++ e :: back) :
    e ∉ front ∧ e ∉ back := by
  have hnodup := hp.nodup_instrs b
  rw [hb] at hnodup
  obtain ⟨-, hback, hacross⟩ := List.nodup_append.mp hnodup
  exact ⟨fun h => hacross e h e List.mem_cons_self rfl, (List.nodup_cons.mp hback).1⟩

theorem straight_congr (hinstrs : (q.block b).instrs = (p.block b).instrs)
    (hsame : ∀ a ∈ (p.block b).instrs, (q.instr a).isTerminator = (p.instr a).isTerminator) :
    q.straight b = p.straight b ∧ q.exit? b = p.exit? b := by
  unfold straight exit?
  rw [hinstrs]
  generalize (p.block b).instrs = ids at hsame
  induction ids with
  | nil => exact ⟨rfl, rfl⟩
  | cons a ids ih =>
    obtain ⟨hstraight, hexit⟩ := ih fun c hc => hsame c (List.mem_cons_of_mem _ hc)
    rw [List.takeWhile_cons, List.takeWhile_cons, List.find?_cons, List.find?_cons,
      hsame a List.mem_cons_self, hstraight, hexit]
    exact ⟨rfl, rfl⟩

theorem straight_append (hinstrs : (p.block b).instrs = front ++ e :: back)
    (hfront : ∀ a ∈ front, (p.instr a).isTerminator = false)
    (he : (p.instr e).isTerminator = true) : p.straight b = front ∧ p.exit? b = some e := by
  unfold straight exit?
  rw [hinstrs]
  constructor
  · rw [List.takeWhile_append_of_pos fun a ha => by simp [hfront a ha],
      List.takeWhile_cons_of_neg (by simp [he]), List.append_nil]
  · rw [List.find?_append, List.find?_eq_none.mpr fun a ha => by simp [hfront a ha],
      Option.none_or]
    simp [he]

theorem straight_subset (p : Program) (b : BlockId) : p.straight b ⊆ (p.block b).instrs :=
  (List.takeWhile_sublist _).subset

theorem exit_mem (h : p.exit? b = some e) :
    e ∈ (p.block b).instrs ∧ (p.instr e).isTerminator = true := by
  unfold exit? at h
  have hterm := List.find?_some h
  exact ⟨List.mem_of_find?_eq_some h, hterm⟩

theorem linesUp_of_alike (hstraight : q.straight b = p.straight b) (hexit : q.exit? b = p.exit? b)
    (halike : ∀ a ∈ (p.block b).instrs, Alike w E source (p.instr a) (q.instr a))
    (hgoes : ∀ a ∈ (p.block b).instrs, ∀ R R', E R R' →
      (q.instr a).goesTo w R' = (p.instr a).goesTo w R)
    (hset : ∀ a ∈ p.straight b ++ (p.exit? b).toList, Settable id E a) :
    LinesUp w id E source p q b := by
  refine ⟨by rw [hstraight, List.map_id], fun a ha => halike a (straight_subset p b ha),
    fun a ha => hset a (List.mem_append_left _ ha), fun hnone => hexit.trans hnone,
    fun e he => ?_⟩
  have hmem := (exit_mem he).1
  refine ⟨e, hexit.trans he, halike e hmem, hgoes e hmem, .inr ⟨rfl, hset e ?_⟩⟩
  rw [he]
  exact List.mem_append_right _ (List.mem_singleton_self e)

theorem linesUp_refl (hinstrs : (q.block b).instrs = (p.block b).instrs)
    (hsame : ∀ a ∈ (p.block b).instrs, q.instr a = p.instr a) : LinesUp w id Eq source p q b := by
  obtain ⟨hstraight, hexit⟩ := straight_congr hinstrs fun a ha => by rw [hsame a ha]
  refine linesUp_of_alike hstraight hexit (fun a ha => ?_) (fun a ha R R' hR => ?_)
    fun a _ => settable_eq a
  · rw [hsame a ha]
    exact alike_refl _
  · rw [hsame a ha, hR]

/-! ## 3. Branches that are settled -/

section

variable {d : Edit.Draft} {new : InstrId} (hp : p.Sound)
  (hins : Inserted p q d e new b front back)

include hp hins

theorem Inserted.instr_of_mem (ha : a ∈ (p.block c).instrs) :
    q.instr a = p.instr a :=
  hins.instr a (hins.ne_new (instr_lt_of_live (hp.instr_live ha)))

theorem Inserted.instr_front (ha : a ∈ front) : q.instr a = p.instr a := by
  refine hins.instr_of_mem hp (c := b) ?_
  rw [hins.before]
  exact List.mem_append_left _ ha

end

theorem goesTo_constant {bits : Nat} {n : Int} {no yes : BlockId} (R : Registers V)
    (hkind : i.kind = .br) (hoperands : i.operands = [.int bits n, .block no, .block yes]) :
    i.goesTo w R = some (if n ≠ 0 then yes else no) := by
  unfold Instr.goesTo
  rw [hkind, hoperands]
  simp only [Instr.branchTo, World.eval, w.truth_int, decide_eq_true_eq, Value.toBlock?]
  split <;> rfl

theorem mirrors_settled {bits : Nat} {n : Int} {no yes : BlockId}
    (hp : p.Sound) (hins : Inserted p q (draftBr (if n ≠ 0 then yes else no)) e new b front back)
    (hfront : ∀ a ∈ front, (p.instr a).isTerminator = false) (hkind : (p.instr e).kind = .br)
    (hoperands : (p.instr e).operands = [.int bits n, .block no, .block yes]) :
    Mirrors id f p q := by
  refine mirrors_of_linesUp (hins.func f) fun w => ⟨Eq, rfl, fun source c => ?_⟩
  by_cases hc : c = b
  case neg => exact linesUp_refl (hins.others c hc) fun a ha => hins.instr_of_mem hp ha
  subst hc
  obtain ⟨name, hmade⟩ := hins.made
  have hterm : (p.instr e).isTerminator = true := by
    rw [Instr.isTerminator, hkind]
    rfl
  have hnew : (q.instr new).isTerminator = true := by
    rw [hmade]
    rfl
  obtain ⟨hstraight, hexit⟩ := straight_append hins.before hfront hterm
  obtain ⟨hstraight', hexit'⟩ := straight_append hins.after
    (fun a ha => by rw [hins.instr_front hp ha]; exact hfront a ha) hnew
  refine ⟨by rw [hstraight', hstraight, List.map_id], fun a ha => ?_, fun a _ => settable_eq a,
    fun hnone => ?_, fun e' he' => ⟨new, hexit', ?_, ?_, .inl ?_⟩⟩
  · rw [hstraight] at ha
    rw [id, hins.instr_front hp ha]
    exact alike_refl _
  · rw [hexit] at hnone
    cases hnone
  all_goals
    obtain rfl := Option.some.inj (hexit.symm.trans he')
  · rw [hmade]
    exact alike_branch hkind rfl
  · rintro R R' rfl
    rw [goesTo_constant R hkind hoperands, hmade]
    rfl
  · exact hkind

/-! ## 4. Edges that are cut -/

/-- A phi has forgotten its entries for a block; what it knows of all others, and all other
    instructions, are as they were. -/
structure Forgets (source : BlockId) (i j : Instr) : Prop where
  plain : i.isPhi = false → j = i
  phi : j.isPhi = i.isPhi
  ty : j.ty = i.ty
  erased : j.erased = i.erased
  operands : j.operands ⊆ i.operands
  entries : ∀ c ≠ source, (j.operands.zip j.phiBlocks).find? (·.2 == c) =
    (i.operands.zip i.phiBlocks).find? (·.2 == c)

theorem Forgets.refl (source : BlockId) (i : Instr) : Forgets source i i :=
  ⟨fun _ => rfl, rfl, rfl, rfl, fun _ h => h, fun _ _ => rfl⟩

theorem forgets_forgetEntry (source : BlockId) (i : Instr) :
    Forgets source i (forgetEntry i source) := by
  obtain ⟨-, herased, hphi, hoperands⟩ := forgetEntry_same i source
  refine ⟨fun h => forgetEntry_plain h source, hphi, ?_, herased, hoperands, fun c hc => ?_⟩
  · unfold forgetEntry
    split <;> rfl
  · cases hi : i.isPhi with
    | false => rw [forgetEntry_plain hi]
    | true =>
      obtain ⟨blocks, hkind⟩ := Instr.isPhi_iff.mp hi
      have hblocks : i.phiBlocks = blocks := by rw [Instr.phiBlocks, hkind]
      unfold forgetEntry
      rw [hkind, hblocks, Instr.phiBlocks]
      dsimp only
      have hsame : (fun entry : Value × BlockId => entry.2 != source && entry.2 == c) =
          fun entry => entry.2 == c := by
        funext entry
        by_cases hentry : entry.2 = c
        · simp [hentry, hc]
        · simp [hentry]
      rw [List.zip_map', List.map_id'' fun _ => rfl, List.find?_filter]
      simp only [Bool.decide_and, Bool.decide_eq_true, hsame]

theorem Forgets.same_or_phi {source : BlockId} (h : Forgets source i j) :
    j = i ∨ ∃ blocks blocks', i.kind = .phi blocks ∧ j.kind = .phi blocks' := by
  cases hi : i.isPhi with
  | false => exact .inl (h.plain hi)
  | true =>
    obtain ⟨blocks, hkind⟩ := Instr.isPhi_iff.mp hi
    obtain ⟨blocks', hkind'⟩ := Instr.isPhi_iff.mp (h.phi.trans hi)
    exact .inr ⟨blocks, blocks', hkind, hkind'⟩

theorem Forgets.isTerminator {source : BlockId} (h : Forgets source i j) :
    j.isTerminator = i.isTerminator := by
  rcases h.same_or_phi with rfl | ⟨blocks, blocks', hkind, hkind'⟩
  · rfl
  · rw [Instr.isTerminator, Instr.isTerminator, hkind, hkind']
    rfl

theorem Forgets.alike {forgotten : BlockId} (h : Forgets forgotten i j)
    (hsource : source ≠ some forgotten) : Alike w Eq source i j where
  branch := by
    rcases h.same_or_phi with rfl | ⟨blocks, blocks', hkind, hkind'⟩
    · rfl
    · rw [hkind, hkind']
      exact iff_of_false (fun h => InstrKind.noConfusion h) fun h => InstrKind.noConfusion h
  phi := h.phi
  ty _ := h.ty
  deed _ hphi R R' hR := by rw [h.plain hphi, hR]
  received R R' hR := by
    unfold Instr.received
    cases source with
    | none => rfl
    | some c =>
      rw [Option.bind_some, Option.bind_some, hR,
        h.entries c fun hc => hsource (congrArg some hc)]

theorem Forgets.goesTo {source : BlockId} (h : Forgets source i j) (R : Registers V) :
    j.goesTo w R = i.goesTo w R := by
  rcases h.same_or_phi with rfl | ⟨blocks, blocks', hkind, hkind'⟩
  · rfl
  · rw [Instr.goesTo, Instr.goesTo, hkind, hkind']

theorem forgetIn_exact (source : BlockId) (ha : (p.instr a).erased = false) :
    ∃ r, p.forgetIn source a = .ok r ∧ p.SameFrame r ∧ (∀ f, r.func f = p.func f) ∧
      r.instr a = forgetEntry (p.instr a) source ∧ ∀ c ≠ a, r.instr c = p.instr c := by
  cases hphi : (p.instr a).isPhi with
  | false =>
    refine ⟨p, ?_, .refl p, fun _ => rfl, (forgetEntry_plain hphi source).symm, fun _ _ => rfl⟩
    unfold forgetIn
    split
    · rename_i blocks hkind
      exact absurd (Instr.isPhi_iff.mpr ⟨blocks, hkind⟩) (Bool.eq_false_iff.mp hphi)
    · rfl
  | true =>
    obtain ⟨blocks, hkind⟩ := Instr.isPhi_iff.mp hphi
    refine ⟨p.updateInstr a (forgetEntry · source), ?_, sameFrame_updateInstr
      (g := (forgetEntry · source)) (fun i => ⟨(forgetEntry_same i source).1,
        (forgetEntry_same i source).2.1⟩) p a, fun _ => rfl,
      instr_updateInstr_self (instr_lt_of_live ha) _, fun c hc => instr_updateInstr_ne hc.symm _⟩
    unfold forgetIn
    rw [hkind]
    exact except_bind_ok.mpr ⟨(), requireLive_ok.mpr ha, rfl⟩

theorem cutEdge_exact (hp : p.Sound) (b source : BlockId) : ∃ q, p.cutEdge b source = .ok q ∧
    p.SameFrame q ∧ (∀ f, q.func f = p.func f) ∧ ∀ a, q.instr a =
      if a ∈ (p.block b).instrs then forgetEntry (p.instr a) source else p.instr a := by
  have hall : ∀ ids : List InstrId, ∀ p : Program, ids.Nodup →
      (∀ a ∈ ids, (p.instr a).erased = false) → ∃ q, ids.foldlM (forgetIn source) p = .ok q ∧
        p.SameFrame q ∧ (∀ f, q.func f = p.func f) ∧
          ∀ a, q.instr a = if a ∈ ids then forgetEntry (p.instr a) source else p.instr a := by
    intro ids
    induction ids with
    | nil =>
      intro p _ _
      exact ⟨p, rfl, .refl p, fun _ => rfl, fun a => (if_neg List.not_mem_nil).symm⟩
    | cons a ids ih =>
      intro p hnodup hlive
      obtain ⟨ha, hnodup⟩ := List.nodup_cons.mp hnodup
      obtain ⟨r, hr, hframe, hfunc, hself, hothers⟩ :=
        forgetIn_exact source (hlive a List.mem_cons_self)
      obtain ⟨q, hq, hframe', hfunc', hinstr⟩ := ih r hnodup fun c hc => by
        rw [hothers c fun h => ha (h ▸ hc)]
        exact hlive c (List.mem_cons_of_mem _ hc)
      refine ⟨q, ?_, hframe.trans hframe', fun f => (hfunc' f).trans (hfunc f), fun c => ?_⟩
      · rw [List.foldlM_cons]
        exact except_bind_ok.mpr ⟨r, hr, hq⟩
      · rw [hinstr]
        by_cases hc : c = a
        · rw [hc, if_neg ha, if_pos List.mem_cons_self, hself]
        · simp only [hothers c hc, List.mem_cons, hc, false_or]
  rw [cutEdge_eq]
  split
  · rename_i herased
    refine ⟨p, rfl, .refl p, fun _ => rfl, fun a => (if_neg ?_).symm⟩
    rw [(hp.erasedBlock b herased).2]
    exact List.not_mem_nil
  · exact hall _ p (hp.nodup_instrs b) fun a ha => hp.instr_live ha

theorem cutEdge_forgets (hp : p.Sound) (b source : BlockId) : ∃ q, p.cutEdge b source = .ok q ∧
    p.SameFrame q ∧ (∀ f, q.func f = p.func f) ∧
      ∀ a, (a ∈ (p.block b).instrs → Forgets source (p.instr a) (q.instr a)) ∧
        (a ∉ (p.block b).instrs → q.instr a = p.instr a) := by
  obtain ⟨q, hq, hframe, hfunc, hinstr⟩ := cutEdge_exact hp b source
  refine ⟨q, hq, hframe, hfunc, fun a => ⟨fun ha => ?_, fun ha => by rw [hinstr, if_neg ha]⟩⟩
  rw [hinstr, if_pos ha]
  exact forgets_forgetEntry source _

theorem step_next {s : RunState V} (hc : s.next = some c) :
    (p.step w s).source = some c ∧ ∀ d, (p.step w s).next = some d →
      ∃ e R, p.exit? c = some e ∧ (p.instr e).goesTo w R = some d := by
  unfold step leave
  rw [hc]
  dsimp only
  cases hexit : p.exit? c with
  | none =>
    refine ⟨rfl, fun d hd => ?_⟩
    cases hd
  | some e => exact ⟨rfl, fun d hd => ⟨e, _, rfl, hd⟩⟩

theorem mirrors_cutEdge {target source : BlockId} (hp : p.Sound)
    (hnever : ∀ {V : Type} (w : World V) (R : Registers V) (e : InstrId),
      p.exit? source = some e → (p.instr e).goesTo w R ≠ some target)
    (hframe : p.SameFrame q) (hfunc : ∀ f, q.func f = p.func f)
    (hinstr : ∀ a, (a ∈ (p.block target).instrs → Forgets source (p.instr a) (q.instr a)) ∧
      (a ∉ (p.block target).instrs → q.instr a = p.instr a)) : Mirrors id f p q := by
  refine mirrors_of_step fun w => ?_
  refine ⟨fun s t => Follows id Eq s t ∧ (s.source = some source → s.next ≠ some target),
    ⟨⟨rfl, rfl, congrArg Func.entryBlock? (hfunc f), rfl⟩, fun h => by cases h⟩, ?_,
    fun s t hs => ⟨hs.1.history, hs.1.next⟩⟩
  rintro s t ⟨hs, hsource⟩
  cases hnext : s.next with
  | none =>
    unfold step
    rw [hs.next, hnext]
    exact ⟨hs, hsource⟩
  | some c =>
    refine ⟨LinesUp.step ?_ hs hnext, ?_⟩
    · have hforgets : ∀ a ∈ (p.block c).instrs, Forgets source (p.instr a) (q.instr a) := by
        intro a _
        by_cases ha : a ∈ (p.block target).instrs
        · exact (hinstr a).1 ha
        · rw [(hinstr a).2 ha]
          exact .refl source _
      obtain ⟨hstraight, hexit⟩ := straight_congr (hframe.block c).2.1
        fun a ha => (hforgets a ha).isTerminator
      refine linesUp_of_alike hstraight hexit (fun a ha => ?_)
        (fun a ha R R' hR => by rw [hR, (hforgets a ha).goesTo]) fun a _ => settable_eq a
      by_cases hc : c = target
      · subst hc
        exact (hforgets a ha).alike fun h => hsource h hnext
      · -- a phi of another block stands in no block that forgets
        have hout : a ∉ (p.block target).instrs := fun h => hc
          (Option.some.inj ((hp.mem_instrs.mp ha).symm.trans (hp.mem_instrs.mp h)))
        rw [(hinstr a).2 hout]
        exact alike_refl _
    · obtain ⟨hfrom, hto⟩ := step_next (p := p) (w := w) hnext
      rw [hfrom]
      rintro heq hd
      obtain ⟨e, R, hexit, hgoes⟩ := hto _ hd
      obtain rfl := Option.some.inj heq
      exact hnever w R e hexit hgoes

/-! ## 5. Invokes that become calls -/

/-- Live instructions mention only handles that have been given out. A handle that has not been could
    come to stand for a new instruction. -/
def Grounded (p : Program) : Prop :=
  ∀ i a, (p.instr i).erased = false → (p.instr i).uses (.instr a) = true → a.index < p.instrs.size

theorem Grounded.inserted (h : p.Grounded)
    (hins : Inserted p q d e new b front back)
    (hd : ∀ a, ∀ v ∈ d.operands, Value.mentions (.instr a) v = true → a.index < p.instrs.size) :
    q.Grounded := by
  intro i a hi huses
  rw [hins.instrs]
  refine Nat.lt_succ_of_lt ?_
  by_cases hnew : i = new
  · obtain ⟨name, hmade⟩ := hins.made
    rw [hnew, hmade] at huses
    obtain ⟨v, hv, hmentions⟩ := Instr.uses_iff.mp huses
    exact hd a v hv hmentions
  · rw [hins.instr i hnew] at hi huses
    exact h i a hi huses

theorem Grounded.rework (h : p.Grounded) (hs : p.SameFrame q)
    (huses : ∀ i a, (q.instr i).uses (.instr a) = true →
      (p.instr i).uses (.instr a) = true ∨ a.index < p.instrs.size) : q.Grounded := by
  intro i a hi ha
  rw [hs.instrs]
  exact (huses i a ha).elim (h i a ((hs.instr i).2.symm.trans hi)) fun hlt => hlt

section

variable {call : InstrId} {R R' : Registers V}

/-- The register of `e` has become the register of `call`, which held nothing before. -/
def Handed (e call : InstrId) (R R' : Registers V) : Prop :=
  ∀ a ≠ call, R' (Function.update id e call a) = R a

theorem Handed.eval (hR : Handed e call R R') {v : Value}
    (hv : ∀ a, Value.mentions (.instr a) v = true → a ≠ call) :
    w.eval R' (Value.substitute (.instr e) (.instr call) v) = w.eval R v := by
  rw [World.eval_substitute]
  refine w.eval_congr v fun a ha => ?_
  have hread := hR a (hv a ha)
  by_cases he : a = e
  · subst he
    rw [Function.update_self] at hread ⊢
    exact hread
  · rw [Function.update_of_ne he] at hread ⊢
    exact hread

theorem settable_handed (ha : a ≠ call) :
    Settable (V := V) (Function.update id e call) (Handed e call) a := by
  intro R R' v hR c hc
  by_cases hca : c = a
  · rw [hca, Function.update_self, Function.update_self]
  · rw [Function.update_of_ne hca, ← hR c hc, Function.update_of_ne]
    -- only `e` is renamed, to a handle that neither of the two has
    by_cases hce : c = e
    · subst hce
      rwa [Function.update_self, Function.update_of_ne (Ne.symm hca), id, ne_comm]
    · by_cases hae : a = e
      · subst hae
        rwa [Function.update_of_ne hca, Function.update_self]
      · rwa [Function.update_of_ne hce, Function.update_of_ne hae]

end

theorem alike_lowered (hi : i.kind = .invoke)
    (hcallee : i.calledFunction? = some callee) (hj : j.kind = .call .none)
    (hoperands : j.operands = (i.arguments ++ [Value.func callee]).map g)
    (hg : ∀ v ∈ i.operands, ∀ R R', E R R' → w.eval R' (g v) = w.eval R v) :
    Alike w E source i j where
  branch := by
    rw [hi, hj]
    exact iff_of_false (fun h => InstrKind.noConfusion h) fun h => InstrKind.noConfusion h
  phi := by rw [Instr.isPhi, Instr.isPhi, hi, hj]
  ty hphi := by
    rw [Instr.isPhi, hi] at hphi
    cases hphi
  deed _ _ R R' hR := by
    obtain ⟨v, hv, hfunc⟩ := Option.bind_eq_some_iff.mp hcallee
    have hv' : v = Value.func callee := by
      cases v <;> cases hfunc
      rfl
    subst hv'
    have hread : ∀ u ∈ (i.arguments ++ [Value.func callee]), w.eval R' (g u) = w.eval R u := by
      intro u hu
      refine hg u ?_ R R' hR
      rcases List.mem_append.mp hu with hu | hu
      · exact Replacing.mem_of_arguments hu
      · rw [List.mem_singleton.mp hu]
        exact Instr.mem_of_callee? hv
    unfold Instr.deed
    rw [hi, hj, hoperands, hv, List.map_map]
    exact congrArg _ (List.map_congr_left hread)
  received R R' _ := by
    rw [Instr.received_of_kind fun blocks h => InstrKind.noConfusion (hj.symm.trans h),
      Instr.received_of_kind fun blocks h => InstrKind.noConfusion (hi.symm.trans h)]

theorem actAll_concat (p : Program) (w : World V) (before : Registers V) (s : RunState V)
    (ids : List InstrId) (a : InstrId) : p.actAll w before s (ids ++ [a]) =
      (p.actAll w before s ids).act w before a (p.instr a) := by
  rw [actAll, List.foldl_append]
  rfl

/-- A call and a branch to the normal destination stand before an invoke, and the call has taken over
    its uses. -/
structure LoweredTo (p q : Program) (e call new : InstrId) (callee : FuncId) (normal b : BlockId)
    (front back : List InstrId) : Prop where
  sound : q.Sound
  fresh : call = ⟨p.instrs.size⟩
  next : new = ⟨p.instrs.size + 1⟩
  size : q.instrs.size = p.instrs.size + 2
  func : ∀ f, q.func f = p.func f
  before : (p.block b).instrs = front ++ e :: back
  after : (q.block b).instrs = front ++ call :: new :: e :: back
  others : ∀ c, c ≠ b → (q.block c).instrs = (p.block c).instrs
  kind : ∀ a, a.index < p.instrs.size → (q.instr a).kind = (p.instr a).kind
  instr : ∀ a, (p.instr a).erased = false → (q.instr a).ty = (p.instr a).ty ∧
    (q.instr a).operands = (p.instr a).operands.map (Value.substitute (.instr e) (.instr call))
  call : (q.instr call).kind = .call .none ∧ (q.instr call).operands =
    ((p.instr e).arguments ++ [Value.func callee]).map (Value.substitute (.instr e) (.instr call))
  branch : (q.instr new).kind = .br ∧ (q.instr new).operands = [.block normal]

theorem lowered_of_inserted {p₁ p₂ : Program}
    (hp : p.Sound)
    (hcall : Inserted p p₁ (p.draftCall callee (p.instr e).arguments none) e call b front back)
    (hbr : Inserted p₁ p₂ (draftBr normal) e new b (front ++ [call]) back) :
    LoweredTo p ((p₂.takeName e call).replaceUses (.instr e) (.instr call)) e call new callee normal b
      front back := by
  have hp₁ := (hcall.evolves hp).1
  have hp₂ := (hbr.evolves hp₁).1
  have hnamed := sameFrame_takeName p₂ e call
  have hreplaced := sameFrame_replaceUses (p₂.takeName e call) (.instr e) (.instr call)
  -- an instruction reads as before the change, apart from its name and `e`
  have hread : ∀ {a i}, p₂.instr a = i → i.erased = false →
      let j := ((p₂.takeName e call).replaceUses (.instr e) (.instr call)).instr a
      j.ty = i.ty ∧ j.operands = i.operands.map (Value.substitute (.instr e) (.instr call)) := by
    rintro a i rfl ha
    obtain ⟨n, hn⟩ := instr_takeName p₂ e call a
    dsimp only
    rw [instr_replaceUses_live (by rw [hn]; exact ha), hn]
    exact ⟨rfl, rfl⟩
  have hkind : ∀ a, (((p₂.takeName e call).replaceUses (.instr e) (.instr call)).instr a).kind =
      (p₂.instr a).kind := fun a => by rw [kind_replaceUses, kind_takeName]
  have hsame : ∀ a, a.index < p.instrs.size → p₂.instr a = p.instr a := by
    intro a ha
    rw [hbr.instr a (hbr.ne_new (by rw [hcall.instrs]; exact Nat.lt_succ_of_lt ha)),
      hcall.instr a (hcall.ne_new ha)]
  have hne : call ≠ new := hbr.ne_new (by
    rw [hcall.instrs, hcall.fresh]
    exact Nat.lt_succ_self _)
  obtain ⟨name, hmade⟩ := hcall.made
  rw [← hbr.instr call hne] at hmade
  obtain ⟨name', hmade'⟩ := hbr.made
  refine ⟨(hreplaced.evolves (hnamed.evolves hp₂).1).1, hcall.fresh, ?_, ?_,
    fun f => (hbr.func f).trans (hcall.func f), hcall.before, ?_, fun c hc => ?_, fun a ha => ?_,
    fun a ha => hread (hsame a (instr_lt_of_live ha)) ha,
    ⟨by rw [hkind, hmade]; rfl, (hread hmade rfl).2⟩,
    ⟨by rw [hkind, hmade']; rfl, (hread hmade' rfl).2⟩⟩
  · rw [hbr.fresh, hcall.instrs]
  · rw [hreplaced.instrs, hnamed.instrs, hbr.instrs, hcall.instrs]
  · rw [(hreplaced.block b).2.1, (hnamed.block b).2.1, hbr.after, List.append_assoc]
    rfl
  · rw [(hreplaced.block c).2.1, (hnamed.block c).2.1, hbr.others c hc, hcall.others c hc]
  · rw [hkind, hsame a ha]

theorem grounded_lowered {p₁ p₂ : Program}
    (hground : p.Grounded) (he : (p.instr e).erased = false)
    (hcall : Inserted p p₁ (p.draftCall callee (p.instr e).arguments none) e call b front back)
    (hbr : Inserted p₁ p₂ (draftBr normal) e new b (front ++ [call]) back) :
    ((p₂.takeName e call).replaceUses (.instr e) (.instr call)).Grounded := by
  have h₁ : p₁.Grounded := by
    refine hground.inserted hcall fun a v hv ha => ?_
    rcases List.mem_append.mp hv with hv | hv
    · exact hground e a he (Instr.uses_iff.mpr ⟨v, Replacing.mem_of_arguments hv, ha⟩)
    · rw [List.mem_singleton.mp hv] at ha
      cases ha
  have h₂ : p₂.Grounded := by
    refine h₁.inserted hbr fun a v hv ha => ?_
    rw [List.mem_singleton.mp hv] at ha
    cases ha
  have h₃ : (p₂.takeName e call).Grounded := by
    refine h₂.rework (sameFrame_takeName p₂ e call) fun i a ha => .inl ?_
    obtain ⟨n, hn⟩ := instr_takeName p₂ e call i
    rw [hn] at ha
    exact ha
  refine h₃.rework (sameFrame_replaceUses _ _ _) fun i a ha => ?_
  refine (uses_replaceUses rfl ha).imp_right fun hmentions => ?_
  obtain rfl : call = a := by simpa [Value.mentions] using hmentions
  rw [(sameFrame_takeName p₂ e call).instrs, hbr.instrs, hcall.instrs, hcall.fresh]
  exact Nat.lt_succ_of_lt (Nat.lt_succ_self _)

section

variable {call new : InstrId} {callee : FuncId} {normal unwind : BlockId} (hp : p.Sound)
  (hlow : LoweredTo p q e call new callee normal b front back)

include hp hlow

theorem LoweredTo.ne_call (ha : a ∈ (p.block c).instrs) : a ≠ call := by
  rintro rfl
  have hlt := instr_lt_of_live (hp.instr_live ha)
  rw [hlow.fresh] at hlt
  exact Nat.lt_irrefl _ hlt

theorem LoweredTo.settable (ha : a ∈ (p.block c).instrs) :
    Settable (V := V) (Function.update id e call) (Handed e call) a :=
  settable_handed (hlow.ne_call hp ha)

theorem LoweredTo.isTerminator (ha : a ∈ (p.block c).instrs) :
    (q.instr a).isTerminator = (p.instr a).isTerminator := by
  rw [Instr.isTerminator, Instr.isTerminator,
    hlow.kind a (instr_lt_of_live (hp.instr_live ha))]

theorem LoweredTo.exit (hfront : ∀ a ∈ front, (p.instr a).isTerminator = false) :
    q.straight b = front ++ [call] ∧ q.exit? b = some new := by
  have hafter : (q.block b).instrs = (front ++ [call]) ++ new :: e :: back := by
    rw [hlow.after, List.append_assoc]
    rfl
  refine straight_append hafter (fun a ha => ?_) ?_
  · rcases List.mem_append.mp ha with ha | ha
    · rw [hlow.isTerminator hp (hlow.before ▸ List.mem_append_left _ ha)]
      exact hfront a ha
    · rw [List.mem_singleton.mp ha, Instr.isTerminator, hlow.call.1]
      rfl
  · rw [Instr.isTerminator, hlow.branch.1]
    rfl

variable (hground : p.Grounded)

include hground

theorem LoweredTo.eval (ha : a ∈ (p.block c).instrs) :
    ∀ v ∈ (p.instr a).operands, ∀ R R', Handed e call R R' →
      w.eval R' (Value.substitute (.instr e) (.instr call) v) = w.eval R v := by
  intro v hv R R' hR
  refine hR.eval fun x hx heq => ?_
  have hlt := hground a x (hp.instr_live ha) (Instr.uses_iff.mpr ⟨v, hv, hx⟩)
  rw [heq, hlow.fresh] at hlt
  exact Nat.lt_irrefl _ hlt

theorem LoweredTo.alike (ha : a ∈ (p.block c).instrs) :
    Alike w (Handed e call) source (p.instr a) (q.instr a) := by
  have hlive := hp.instr_live ha
  obtain ⟨hty, hoperands⟩ := hlow.instr a hlive
  exact alike_map (hlow.kind a (instr_lt_of_live hlive)) hty hoperands (hlow.eval hp hground ha)

theorem LoweredTo.linesUp (hc : c ≠ b) :
    LinesUp w (Function.update id e call) (Handed e call) source p q c := by
  have hout : ∀ a ∈ (p.block c).instrs, Function.update id e call a = a := by
    intro a ha
    refine Function.update_of_ne ?_ _ _
    rintro rfl
    have hin : a ∈ (p.block b).instrs := by
      rw [hlow.before]
      exact List.mem_append_right _ List.mem_cons_self
    exact hc (Option.some.inj ((hp.mem_instrs.mp ha).symm.trans (hp.mem_instrs.mp hin)))
  have hsub := straight_subset p c
  obtain ⟨hstraight, hexit⟩ := straight_congr (hlow.others c hc) fun a ha => hlow.isTerminator hp ha
  refine ⟨?_, fun a ha => ?_, fun a ha => hlow.settable hp (hsub ha), fun h => hexit.trans h,
    fun x hx => ?_⟩
  · rw [hstraight]
    exact ((List.map_congr_left fun a ha => hout a (hsub ha)).trans (List.map_id' _)).symm
  · rw [hout a (hsub ha)]
    exact hlow.alike hp hground (hsub ha)
  · have hmem := (exit_mem hx).1
    refine ⟨x, hexit.trans hx, hlow.alike hp hground hmem, fun R R' hR => ?_,
      .inr ⟨(hout x hmem).symm, hlow.settable hp hmem⟩⟩
    have hlive := hp.instr_live hmem
    exact Instr.goesTo_map (hlow.kind x (instr_lt_of_live hlive)) (hlow.instr x hlive).2
      (fun v hv => hlow.eval hp hground hmem v hv R R' hR) (Value.toBlock?_substitute rfl rfl)

theorem mirrors_lowered (hfront : ∀ a ∈ front, (p.instr a).isTerminator = false)
    (hkind : (p.instr e).kind = .invoke) (hcallee : (p.instr e).calledFunction? = some callee)
    (hdest : (p.instr e).invokeDestinations? = some (normal, unwind)) :
    Mirrors (Function.update id e call) f p q := by
  refine mirrors_of_step fun w => ?_
  refine ⟨Follows (Function.update id e call) (Handed e call),
    ⟨rfl, rfl, congrArg Func.entryBlock? (hlow.func f), fun _ _ => rfl⟩, fun s t hs => ?_,
    fun s t hs => ⟨hs.history, hs.next⟩⟩
  cases hnext : s.next with
  | none =>
    unfold step
    rw [hs.next, hnext]
    exact hs
  | some c =>
    by_cases hc : c = b
    case neg => exact (hlow.linesUp hp hground hc).step hs hnext
    subst hc
    have hmem : ∀ a ∈ front ++ e :: back, a ∈ (p.block c).instrs := fun a ha => hlow.before ▸ ha
    have hin : e ∈ (p.block c).instrs := hmem e (List.mem_append_right _ List.mem_cons_self)
    obtain ⟨hstraight, hexit⟩ := straight_append hlow.before hfront (by
      rw [Instr.isTerminator, hkind]
      rfl)
    obtain ⟨hstraight', hexit'⟩ := hlow.exit hp hfront
    -- up to the invoke the blocks are the same
    have hkept : ∀ a ∈ front, Function.update id e call a = a := by
      intro a ha
      refine Function.update_of_ne ?_ _ _
      rintro rfl
      have hnodup := hp.nodup_instrs c
      rw [hlow.before] at hnodup
      exact List.disjoint_of_nodup_append hnodup ha List.mem_cons_self
    have hall : Follows (Function.update id e call) (Handed e call)
        (p.actAll w s.registers s front) (q.actAll w t.registers t (front.map _)) :=
      hs.actAll (fun a ha => by
        rw [hkept a ha]
        exact hlow.alike hp hground (hmem a (List.mem_append_left _ ha)))
        (fun a ha => hlow.settable hp (hmem a (List.mem_append_left _ ha))) hs.registers
    rw [List.map_congr_left hkept, List.map_id'] at hall
    have hdone : Follows (Function.update id e call) (Handed e call)
        ((p.actAll w s.registers s front).act w s.registers e (p.instr e))
        ((q.actAll w t.registers t front).act w t.registers call (q.instr call)) :=
      hall.act (alike_lowered hkind hcallee hlow.call.1 hlow.call.2 (hlow.eval hp hground hin))
        hs.registers (.inr ⟨(Function.update_self e call id).symm, hlow.settable hp hin⟩)
    unfold step leave
    rw [hs.next, hnext]
    dsimp only
    rw [hexit, hexit', hstraight, hstraight', actAll_concat]
    dsimp only
    rw [RunState.act_branch hlow.branch.1]
    refine ⟨hdone.history, rfl, ?_, hdone.registers⟩
    rw [Instr.goesTo, Instr.goesTo, hlow.branch.1, hlow.branch.2, hkind]
    dsimp only
    rw [hdest]
    rfl

end

/-! ## 6. Instructions behind a terminator -/

/-- A terminator stands somewhere before an instruction of its block. -/
def Behind (p : Program) (t a : InstrId) : Prop :=
  (p.instr t).isTerminator = true ∧ ∃ b, [t, a].Sublist (p.block b).instrs

theorem Behind.split (h : p.Behind t a) : ∃ b front e back,
    (p.block b).instrs = front ++ e :: back ∧ (∀ x ∈ front, (p.instr x).isTerminator = false) ∧
      (p.instr e).isTerminator = true ∧ a ∈ back := by
  obtain ⟨hterm, b, hsub⟩ := h
  obtain ⟨upTo, rest, hinstrs, ht, hrest⟩ := List.cons_sublist_iff.mp hsub
  obtain ⟨e, hfind⟩ := Option.isSome_iff_exists.mp
    (List.find?_isSome (p := fun x => (p.instr x).isTerminator).mpr ⟨t, ht, hterm⟩)
  obtain ⟨he, front, back, rfl, hfront⟩ := List.find?_eq_some_iff_append.mp hfind
  refine ⟨b, front, e, back ++ rest, by rw [hinstrs, List.append_assoc, List.cons_append],
    fun x hx => by simpa using hfront x hx, he, ?_⟩
  exact List.mem_append_right _ (List.singleton_sublist.mp hrest)

/-- An instruction of a block is gone, and the undefined value stands where it was used. -/
structure Deleted (p q : Program) (a : InstrId) (b : BlockId) : Prop where
  sound : q.Sound
  size : q.instrs.size = p.instrs.size
  func : ∀ f, q.func f = p.func f
  block : (q.block b).instrs = (p.block b).instrs.filter (· != a)
  others : ∀ c ≠ b, (q.block c).instrs = (p.block c).instrs
  kind : ∀ x, (q.instr x).kind = (p.instr x).kind
  instr : ∀ {c x}, x ∈ (p.block c).instrs → (q.instr x).ty = (p.instr x).ty ∧
    (q.instr x).operands =
      (p.instr x).operands.map (Value.substitute (.instr a) (.undef (p.instr a).ty))

theorem deleteInstr_deleted (hp : p.Sound) (ha : a ∈ (p.block b).instrs) :
    ∃ q, p.deleteInstr a = .ok q ∧ Deleted p q a b := by
  obtain ⟨r, hr, hframe, hfunc, hkind, hread⟩ : ∃ r, (if p.hasUses (.instr a) then
      p.replaceUses (.instr a) (.undef (p.instr a).ty) else p) = r ∧ p.SameFrame r ∧
      (∀ f, r.func f = p.func f) ∧ (∀ x, (r.instr x).kind = (p.instr x).kind) ∧
      ∀ {c x}, x ∈ (p.block c).instrs → (r.instr x).ty = (p.instr x).ty ∧
        (r.instr x).operands = (p.instr x).operands.map
          (Value.substitute (.instr a) (.undef (p.instr a).ty)) := by
    by_cases huses : p.hasUses (.instr a) = true
    · refine ⟨_, if_pos huses, sameFrame_replaceUses .., fun _ => rfl,
        fun x => kind_replaceUses .., fun hx => ?_⟩
      rw [instr_replaceUses_live (hp.instr_live hx)]
      exact ⟨rfl, rfl⟩
    · refine ⟨_, if_neg huses, .refl p, fun _ => rfl, fun _ => rfl, fun {c x} hx => ?_⟩
      refine ⟨rfl, (substitute_of_not_uses (Bool.eq_false_iff.mpr fun h => ?_) _).symm⟩
      refine huses (hasUses_iff.mpr (.inl ⟨x, hp.instr_live hx, ?_, h⟩))
      rw [hp.mem_instrs.mp hx]
      rfl
  have hlive : (r.instr a).erased = false := (hframe.instr a).2.trans (hp.instr_live ha)
  have hparent : (r.instr a).parent = some b := (hframe.instr a).1.trans (hp.mem_instrs.mp ha)
  refine ⟨r.dropInstr a, ?_, ?_⟩
  · unfold deleteInstr
    dsimp only
    rw [hr]
    exact eraseInstr_ok.mpr ⟨hlive, rfl⟩
  refine ⟨(evolves_dropInstr hlive (hframe.evolves hp).1).1, (sizes_dropInstr r a).2.2.trans
    hframe.instrs, fun f => (func_dropInstr r a f).trans (hfunc f), ?_, fun c hc => ?_,
    fun x => ?_, fun {c x} hx => ?_⟩
  · rw [block_dropInstr, if_pos hparent, (hframe.block b).2.1]
  · rw [block_dropInstr, if_neg, (hframe.block c).2.1]
    rw [hparent, Option.some_inj]
    exact Ne.symm hc
  · by_cases hx : a = x
    · subst hx
      rw [instr_dropInstr_self (instr_lt_of_live hlive)]
      exact hkind a
    · rw [instr_dropInstr_ne hx]
      exact hkind x
  · by_cases hx' : a = x
    · subst hx'
      rw [instr_dropInstr_self (instr_lt_of_live hlive)]
      exact hread hx
    · rw [instr_dropInstr_ne hx']
      exact hread hx

theorem Deleted.kept (hdel : Deleted p q a b) (hp : p.Sound)
    (hbehind : p.Behind t a) (ha : a ∈ (p.block b).instrs) (c : BlockId) :
    (q.straight c = p.straight c ∧ q.exit? c = p.exit? c) ∧
      a ∉ p.straight c ++ (p.exit? c).toList := by
  obtain ⟨b', front, e, back, hinstrs, hfront, he, hback⟩ := hbehind.split
  obtain rfl : b' = b := by
    have hin : a ∈ (p.block b').instrs := by
      rw [hinstrs]
      exact List.mem_append_right _ (List.mem_cons_of_mem _ hback)
    exact Option.some.inj ((hp.mem_instrs.mp hin).symm.trans (hp.mem_instrs.mp ha))
  have hterm : ∀ x, (q.instr x).isTerminator = (p.instr x).isTerminator := by
    intro x
    rw [Instr.isTerminator, Instr.isTerminator, hdel.kind]
  by_cases hc : c = b'
  case neg =>
    refine ⟨straight_congr (hdel.others c hc) fun x _ => hterm x, fun hmem => hc ?_⟩
    have hin : a ∈ (p.block c).instrs := by
      rcases List.mem_append.mp hmem with h | h
      · exact straight_subset p c h
      · exact (exit_mem (Option.mem_toList.mp h)).1
    exact Option.some.inj ((hp.mem_instrs.mp hin).symm.trans (hp.mem_instrs.mp ha))
  subst hc
  obtain ⟨hstraight, hexit⟩ := straight_append hinstrs hfront he
  have hnodup := hp.nodup_instrs c
  rw [hinstrs] at hnodup
  have hout : a ∉ front ++ [e] := by
    rw [← List.singleton_append, ← List.append_assoc] at hnodup
    exact fun h => List.disjoint_of_nodup_append hnodup h hback
  have hfilter : (q.block c).instrs = front ++ e :: back.filter (· != a) := by
    have hall : (front ++ [e]).filter (· != a) = front ++ [e] := by
      refine List.filter_eq_self.mpr fun x hx => bne_iff_ne.mpr ?_
      rintro rfl
      exact hout hx
    rw [hdel.block, hinstrs, ← List.singleton_append, ← List.append_assoc, List.filter_append,
      hall, List.append_assoc, List.singleton_append]
  obtain ⟨hstraight', hexit'⟩ := straight_append hfilter
    (fun x hx => (hterm x).trans (hfront x hx)) ((hterm e).trans he)
  rw [hstraight, hstraight', hexit, hexit']
  exact ⟨⟨rfl, rfl⟩, hout⟩

/-- What stands behind a terminator can go. -/
theorem mirrors_deleted (hp : p.Sound) (hbehind : p.Behind t a)
    (hdel : Deleted p q a b) (ha : a ∈ (p.block b).instrs) : Mirrors id f p q := by
  refine mirrors_of_linesUp (hdel.func f) fun w => ?_
  refine ⟨fun R R' => R' = R ∧ R a = w.undefined, ⟨rfl, rfl⟩, fun source c => ?_⟩
  have heval : ∀ v R R', R' = R ∧ R a = w.undefined →
      w.eval R' (Value.substitute (.instr a) (.undef (p.instr a).ty) v) = w.eval R v := by
    rintro v R R' ⟨rfl, hundef⟩
    rw [World.eval_substitute, World.eval, ← hundef, Function.update_eq_self]
  have hkept := hdel.kept hp hbehind ha c
  refine linesUp_of_alike hkept.1.1 hkept.1.2 (fun x hx => ?_) (fun x hx R R' hR => ?_)
    fun x hx => ?_
  · obtain ⟨hty, hoperands⟩ := hdel.instr hx
    exact alike_map (hdel.kind x) hty hoperands fun v _ R R' hR => heval v R R' hR
  · exact Instr.goesTo_map (hdel.kind x) (hdel.instr hx).2 (fun v _ => heval v R R' hR)
      (Value.toBlock?_substitute rfl rfl)
  · rintro R R' v ⟨rfl, hundef⟩
    refine ⟨rfl, ?_⟩
    rwa [Function.update_of_ne]
    rintro rfl
    exact hkept.2 hx

end Program

end QirProfile
