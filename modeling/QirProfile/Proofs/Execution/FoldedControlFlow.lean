import QirProfile.Proofs.Execution.Edges
import QirProfile.Proofs.Program.Neat
import QirProfile.Proofs.Rule.Careful
import QirProfile.Proofs.Tweaks

/-!
# Folding control flow preserves execution

A round of folding tries the rules on the instructions of a function one after the other. A rule that
accepts a terminator puts another one before it and schedules the old one; what is scheduled goes when
all instructions have been seen.

While a round is under way, the old terminators still stand in their blocks. `Round` says what carries
it: what is scheduled stands behind a terminator that stays, and what has not been looked at ends its
block alone if it ends it at all. So no run comes to what is scheduled, and a rule that accepts finds
the block as `verify` has left it.
-/

namespace QirProfile

namespace Program

variable {p q r : Program} {D : List InstrId} {f : FuncId} {e new : InstrId} {b : BlockId}
  {front back : List InstrId}

/-! ## 1. Terminators that are relieved -/

/-- The instructions that are there stay what they are; phis stay phis. -/
structure KeepsKinds (p q : Program) : Prop where
  size : p.instrs.size ≤ q.instrs.size
  phi : ∀ a, a.index < p.instrs.size → (q.instr a).isPhi = (p.instr a).isPhi
  plain : ∀ a, a.index < p.instrs.size → (p.instr a).isPhi = false →
    (q.instr a).kind = (p.instr a).kind

theorem KeepsKinds.trans (h₁ : p.KeepsKinds q) (h₂ : q.KeepsKinds r) : p.KeepsKinds r where
  size := Nat.le_trans h₁.size h₂.size
  phi a ha := (h₂.phi a (Nat.lt_of_lt_of_le ha h₁.size)).trans (h₁.phi a ha)
  plain a ha hphi := by
    have ha' := Nat.lt_of_lt_of_le ha h₁.size
    exact (h₂.plain a ha' ((h₁.phi a ha).trans hphi)).trans (h₁.plain a ha hphi)

theorem keepsKinds_of_kind (hsize : p.instrs.size ≤ q.instrs.size)
    (hkind : ∀ a, a.index < p.instrs.size → (q.instr a).kind = (p.instr a).kind) :
    p.KeepsKinds q where
  size := hsize
  phi a ha := by rw [Instr.isPhi, Instr.isPhi, hkind a ha]
  plain a ha _ := hkind a ha

theorem KeepsKinds.kind_of (h : p.KeepsKinds q) {a : InstrId} (ha : a.index < p.instrs.size)
    (hphi : (q.instr a).isPhi = false) : (q.instr a).kind = (p.instr a).kind :=
  h.plain a ha ((h.phi a ha).symm.trans hphi)

theorem KeepsKinds.isTerminator (h : p.KeepsKinds q) {a : InstrId} (ha : a.index < p.instrs.size) :
    (q.instr a).isTerminator = (p.instr a).isTerminator := by
  cases hphi : (p.instr a).isPhi with
  | false => rw [Instr.isTerminator, Instr.isTerminator, h.plain a ha hphi]
  | true =>
    obtain ⟨blocks, hkind⟩ := Instr.isPhi_iff.mp hphi
    obtain ⟨blocks', hkind'⟩ := Instr.isPhi_iff.mp ((h.phi a ha).trans hphi)
    rw [Instr.isTerminator, Instr.isTerminator, hkind, hkind']
    rfl

/-- The terminator `new` has been put before `e`. -/
structure Relieved (p q : Program) (e new : InstrId) : Prop where
  sound : q.Sound
  grounded : p.Grounded → q.Grounded
  neat : ∀ D, e ∉ D → Neat D p → Neat (e :: D) q
  kinds : p.KeepsKinds q
  fresh : p.instrs.size ≤ new.index
  blocks : ∀ c, (p.block c).instrs.Sublist (q.block c).instrs
  others : ∀ c, e ∉ (p.block c).instrs → (q.block c).instrs = (p.block c).instrs
  behind : q.Behind new e

theorem relieved_inserted {taken : BlockId} (hp : p.Sound)
    (hterm : (p.instr e).isTerminator = true) (htaken : .block taken ∈ (p.instr e).operands)
    (hins : Inserted p q (draftBr taken) e new b front back) : Relieved p q e new := by
  have hsize : p.instrs.size ≤ q.instrs.size := by
    rw [hins.instrs]
    exact Nat.le_succ _
  obtain ⟨name, hmade⟩ := hins.made
  refine ⟨(hins.evolves hp).1, fun hground => hground.inserted hins fun a v hv ha => ?_,
    fun D he h => hins.neat_terminator h he hterm rfl rfl fun v hv =>
      List.mem_singleton.mp hv ▸ htaken,
    keepsKinds_of_kind hsize fun a ha => ?_, ?_, fun c => ?_, fun c hc => hins.others c ?_, ?_, b, ?_⟩
  · rw [List.mem_singleton.mp hv] at ha
    cases ha
  · rw [hins.instr a (hins.ne_new ha)]
  · rw [hins.fresh]
  · by_cases hc : c = b
    · rw [hc, hins.before, hins.after]
      exact (List.Sublist.refl front).append (List.sublist_cons_self _ _)
    · rw [hins.others c hc]
  · rintro rfl
    rw [hins.before] at hc
    exact hc (List.mem_append_right _ List.mem_cons_self)
  · rw [hmade]
    rfl
  · rw [hins.after]
    refine List.Sublist.trans ?_ (List.sublist_append_right _ _)
    exact ((List.nil_sublist back).cons_cons e).cons_cons new

theorem neat_lowered {p₁ p₂ : Program} {call : InstrId} {callee : FuncId}
    {normal unwind : BlockId} (h : Neat D p) (he : e ∉ D) (hkind : (p.instr e).kind = .invoke)
    (hcallee : (p.instr e).calledFunction? = some callee)
    (hdest : (p.instr e).invokeDestinations? = some (normal, unwind))
    (hcall : Inserted p p₁ (p.draftCall callee (p.instr e).arguments none) e call b front back)
    (hbr : Inserted p₁ p₂ (draftBr normal) e new b (front ++ [call]) back) :
    Neat (e :: D) ((p₂.takeName e call).replaceUses (.instr e) (.instr call)) := by
  have hterm : (p.instr e).isTerminator = true := by
    rw [Instr.isTerminator, hkind]
    rfl
  have hphi : (p.instr e).isPhi = false := by rw [Instr.isPhi, hkind]
  have hlt := instr_lt_of_parent hcall.anchored
  have hsame : p₁.instr e = p.instr e := hcall.instr e (hcall.ne_new hlt)
  have h₁ : Neat D p₁ := by
    refine hcall.neat h he hphi rfl rfl fun v hv => ?_
    rcases List.mem_append.mp hv with hv | hv
    · exact Replacing.mem_of_arguments hv
    · rw [List.mem_singleton.mp hv]
      exact Instr.mem_of_calledFunction? hcallee
  have h₂ : Neat (e :: D) p₂ := by
    refine hbr.neat_terminator h₁ he (hsame ▸ hterm) rfl rfl fun v hv => ?_
    rw [hsame, List.mem_singleton.mp hv]
    exact Replacing.mem_of_invokeDestinations? hdest
  -- the call stands where the invoke stands
  refine (h₂.takeName e call).replaceUses (Value.flat_of_isLocal rfl) fun f _ hin => .inl ?_
  have hplaces := (sameFrame_takeName p₂ e call).places fun _ => rfl
  rw [hplaces.functionOf, hbr.functionOf (hbr.ne_new (Nat.lt_of_lt_of_le hlt (by
    rw [hcall.instrs]; exact Nat.le_succ _))), hcall.functionOf (hcall.ne_new hlt),
    hcall.anchored_in] at hin
  rw [hplaces.functionOf, hbr.functionOf (hbr.ne_new (by
    rw [hcall.instrs, hcall.fresh]; exact Nat.lt_succ_self _))]
  exact hcall.functionOf_new hin

theorem relieved_lowered {call : InstrId} {callee : FuncId} {normal : BlockId}
    (hlow : LoweredTo p q e call new callee normal b front back) (hground : p.Grounded → q.Grounded)
    (hneat : ∀ D, e ∉ D → Neat D p → Neat (e :: D) q) : Relieved p q e new := by
  refine ⟨hlow.sound, hground, hneat, keepsKinds_of_kind ?_ hlow.kind, ?_, fun c => ?_,
    fun c hc => hlow.others c ?_, ?_, b, ?_⟩
  · rw [hlow.size]
    exact Nat.le_add_right _ _
  · rw [hlow.next]
    exact Nat.le_succ _
  · by_cases hc : c = b
    · rw [hc, hlow.before, hlow.after]
      exact (List.Sublist.refl front).append
        ((List.sublist_cons_self _ _).trans (List.sublist_cons_self _ _))
    · rw [hlow.others c hc]
  · rintro rfl
    rw [hlow.before] at hc
    exact hc (List.mem_append_right _ List.mem_cons_self)
  · rw [Instr.isTerminator, hlow.branch.1]
    rfl
  · rw [hlow.after]
    refine List.Sublist.trans ?_ (List.sublist_append_right _ _)
    exact (((List.nil_sublist back).cons_cons e).cons_cons new).cons call

theorem Relieved.forget {source : BlockId} (h : Relieved p q e new) (hframe : q.SameFrame r)
    (hforgets : ∀ a, Forgets source (q.instr a) (r.instr a)) (hneat : ∀ D, Neat D q → Neat D r) :
    Relieved p r e new ∧ q.KeepsKinds r := by
  have hkinds : q.KeepsKinds r := ⟨hframe.instrs.ge, fun a _ => (hforgets a).phi,
    fun a _ hphi => by rw [(hforgets a).plain hphi]⟩
  refine ⟨⟨(hframe.evolves h.sound).1,
    fun hground => (h.grounded hground).rework hframe fun i a ha => .inl ?_,
    fun D he hD => hneat (e :: D) (h.neat D he hD), h.kinds.trans hkinds, h.fresh, fun c => ?_,
    fun c hc => ?_, ?_, ?_⟩, hkinds⟩
  · obtain ⟨v, hv, hmentions⟩ := Instr.uses_iff.mp ha
    exact Instr.uses_iff.mpr ⟨v, (hforgets i).operands hv, hmentions⟩
  · rw [(hframe.block c).2.1]
    exact h.blocks c
  · rw [(hframe.block c).2.1]
    exact h.others c hc
  · rw [(hforgets new).isTerminator]
    exact h.behind.1
  · obtain ⟨c, hsub⟩ := h.behind.2
    refine ⟨c, ?_⟩
    rw [(hframe.block c).2.1]
    exact hsub

/-! ## 2. Builders and cuts succeed -/

theorem insert_before_of_mem (hp : p.Sound) (hb : (p.block b).instrs = front ++ e :: back)
    (d : Edit.Draft) :
    ∃ new q, Edit.insert (.before e) d p = .ok new q ∧ Inserted p q d e new b front back := by
  have hin : e ∈ (p.block b).instrs := by
    rw [hb]
    exact List.mem_append_right _ List.mem_cons_self
  have hlive := hp.instr_live hin
  have hne : e ≠ ⟨p.instrs.size⟩ := by
    rintro rfl
    exact Nat.lt_irrefl _ (instr_lt_of_live hlive)
  obtain ⟨n, hn⟩ : ∃ n, (p.block b).instrs.idxOf? e = some n :=
    Option.isSome_iff_exists.mp (List.isSome_idxOf?.mpr hin)
  have hbeside : (p.drafted d).insertBeside e ⟨p.instrs.size⟩ 0 = .ok
      ((p.drafted d).attach b ⟨p.instrs.size⟩ (·.insertIdx (n + 0) ⟨p.instrs.size⟩)) := by
    refine insertBeside_ok.mpr ⟨?_, b, n, positionOf_ok.mpr ?_, rfl⟩
    · rw [instr_drafted_new]
      exact ⟨rfl, rfl⟩
    · rw [instr_drafted_ne d hne]
      exact ⟨hlive, hp.mem_instrs.mp hin, hn⟩
  have hinsert : Edit.insert (.before e) d p = .ok ⟨p.instrs.size⟩
      ((p.drafted d).attach b ⟨p.instrs.size⟩ (·.insertIdx (n + 0) ⟨p.instrs.size⟩)) := by
    have hmake : Edit.make (·.createInstr d.kind d.ty d.operands) p = .ok ⟨p.instrs.size⟩
        (p.createInstr d.kind d.ty d.operands).1 := rfl
    have hname : (modify (·.setInstrName ⟨p.instrs.size⟩ d.name) : Edit PUnit)
        (p.createInstr d.kind d.ty d.operands).1 = .ok ⟨⟩ (p.drafted d) := rfl
    unfold Edit.insert Edit.insertMoving
    refine (bind_of_ok (a := (⟨p.instrs.size⟩, .before e)) ?_ _).trans rfl
    rw [bind_of_ok hmake, bind_of_ok hname]
    exact (bind_of_ok (a := ()) (attempt_ok.mpr hbeside) _).trans rfl
  obtain ⟨b', front', back', hins⟩ := insert_before_ok hinsert
  obtain rfl : b' = b := Option.some.inj (hins.anchored.symm.trans (hp.mem_instrs.mp hin))
  have hnot := hp.not_mem_beside hb
  obtain ⟨rfl, -, rfl⟩ := (List.append_cons_inj_of_notMem hnot.1 hnot.2).mp
    (hb.symm.trans hins.before)
  exact ⟨_, _, hinsert, hins⟩

theorem cut_away {taken : BlockId} (h : Relieved p q e new) (hexit : q.exit? b = some new)
    (hkind : (q.instr new).kind = .br) (hoperands : (q.instr new).operands = [.block taken])
    (dropped : BlockId) :
    ∃ r, (if taken ≠ dropped then q.cutEdge dropped b else .ok q) = .ok r ∧ Relieved p r e new ∧
      q.KeepsKinds r ∧ Mirrors id f q r := by
  by_cases hne : taken ≠ dropped
  case neg =>
    exact ⟨q, if_neg hne, h, keepsKinds_of_kind (Nat.le_refl _) fun _ _ => rfl, .refl q f⟩
  rw [if_pos hne]
  obtain ⟨r, hcut, hframe, hfunc, hinstr⟩ := cutEdge_forgets h.sound dropped b
  have hforgets : ∀ a, Forgets b (q.instr a) (r.instr a) := by
    intro a
    by_cases ha : a ∈ (q.block dropped).instrs
    · exact (hinstr a).1 ha
    · rw [(hinstr a).2 ha]
      exact .refl b _
  obtain ⟨hrelieved, hkinds⟩ := h.forget hframe hforgets fun D hD => hD.cutEdge hcut
  refine ⟨r, hcut, hrelieved, hkinds, mirrors_cutEdge h.sound ?_ hframe hfunc hinstr⟩
  intro V w R x hx
  obtain rfl := Option.some.inj (hexit.symm.trans hx)
  rw [Instr.goesTo, hkind, hoperands]
  exact fun heq => hne (Option.some.inj heq)

end Program

/-! ## 3. Rules -/

namespace Replacing

open Program

variable {f : FuncId} {s : RuleState Unit} {e : InstrId} {b : BlockId} {front back : List InstrId}
  {captures : Captures}

/-- A rule has accepted a terminator: what it has put before it does the same, and the terminator is
    scheduled. Only an invoke comes under a new handle. -/
structure Accepted (f : FuncId) (s s' : RuleState Unit) (e : InstrId) (σ : InstrId → InstrId) :
    Prop where
  scheduled : s'.scheduled = s.scheduled ++ [⟨e, none⟩]
  relieved : ∃ new, Relieved s.program s'.program e new
  mirrors : s.program.Grounded → Mirrors σ f s.program s'.program
  sheds : ∀ D, e ∉ D → WellEnded D f s.program →
    WellEnded (e :: D) f s'.program ∧ Sheds f s.program s'.program
  renamed : ∀ a, σ a = a ∨ a = e ∧ (s.program.instr e).kind = .invoke ∧
    (σ a).index < s'.program.instrs.size ∧ (s'.program.instr (σ a)).kind = .call .none

section

variable (hp : s.program.Sound) (hb : (s.program.block b).instrs = front ++ e :: back)
  (hfront : ∀ a ∈ front, (s.program.instr a).isTerminator = false)

include hp hb hfront

theorem settleBranch_accepts {bits : Nat} {n : Int} {no yes : BlockId}
    (hkind : (s.program.instr e).kind = .br)
    (hoperands : (s.program.instr e).operands = [.int bits n, .block no, .block yes])
    (hcond : captures.int? "cond" = some n) (htrue : captures.block? "if_true" = some yes)
    (hfalse : captures.block? "if_false" = some no) :
    ∃ s', settleBranch e captures s = .ok true s' ∧ Accepted f s s' e id := by
  have hin : e ∈ (s.program.block b).instrs := by
    rw [hb]
    exact List.mem_append_right _ List.mem_cons_self
  unfold settleBranch
  rw [hcond, htrue, hfalse]
  dsimp only
  generalize hpair : (if n ≠ 0 then (yes, no) else (no, yes)) = pair
  obtain ⟨taken, dropped⟩ := pair
  have htaken : (if n ≠ 0 then yes else no) = taken := by
    split at hpair <;> cases hpair
    · exact if_pos ‹_›
    · exact if_neg ‹_›
  have hterm : (s.program.instr e).isTerminator = true := by
    rw [Instr.isTerminator, hkind]
    rfl
  have hoperand : .block taken ∈ (s.program.instr e).operands := by
    rw [hoperands, ← htaken]
    split <;> simp
  obtain ⟨new, q, hinsert, hins⟩ := insert_before_of_mem hp hb (draftBr taken)
  have hmirrors : Mirrors id f s.program q :=
    mirrors_settled hp (by rw [htaken]; exact hins) hfront hkind hoperands
  obtain ⟨name, hmade⟩ := hins.made
  have hexit : q.exit? b = some new := by
    refine (straight_append hins.after (fun a ha => ?_) ?_).2
    · rw [hins.instr_front hp ha]
      exact hfront a ha
    · rw [hmade]
      rfl
  obtain ⟨r, hcut, hrelieved, -, hmirrors'⟩ := cut_away (f := f)
    (relieved_inserted hp hterm hoperand hins) hexit (by rw [hmade]; rfl) (by rw [hmade]; rfl) dropped
  have hparent : (q.instr e).parent = some b := by
    rw [hins.instr_of_mem hp hin]
    exact hp.mem_instrs.mp hin
  have hedges : (s.program.instr e).successors = [taken, dropped] ∨
      (s.program.instr e).successors = [dropped, taken] := by
    rw [Instr.successors, hkind, hoperands]
    split at hpair <;> cases hpair
    · exact .inr rfl
    · exact .inl rfl
  have hq := (hins.evolves hp).1
  have hdiverted := hins.diverted hp
  have hsheds : ∀ D, e ∉ D → WellEnded D f s.program →
      WellEnded (e :: D) f r ∧ Sheds f s.program r := fun D he hwell =>
    ⟨hdiverted.cut_wellEnded hq hfront hterm hcut hp he hwell,
      hdiverted.cut_sheds hq hfront hterm hcut hedges hwell.plain⟩
  refine ⟨{ s with program := r, scheduled := s.scheduled ++ [⟨e, none⟩] }, ?_, rfl,
    ⟨new, hrelieved⟩, fun _ => hmirrors.trans hmirrors', hsheds, fun a => .inl rfl⟩
  rw [bind_of_ok (edit_ok.mpr ⟨q, hinsert, rfl⟩)]
  by_cases hne : taken ≠ dropped
  · rw [if_pos hne] at hcut ⊢
    have hprogram : (program : Replacing Unit Program) ⟨q, s.scheduled, s.extra⟩ =
        .ok q ⟨q, s.scheduled, s.extra⟩ := rfl
    rw [bind_of_ok hprogram, hparent]
    exact (bind_of_ok (a := ()) (edit_ok.mpr ⟨r, attempt_ok.mpr hcut, rfl⟩) _).trans rfl
  · rw [if_neg hne] at hcut ⊢
    cases hcut
    rfl

theorem invokeToCall_accepts {callee : FuncId} {normal unwind : BlockId}
    (hkind : (s.program.instr e).kind = .invoke)
    (hcallee : (s.program.instr e).calledFunction? = some callee)
    (hdest : (s.program.instr e).invokeDestinations? = some (normal, unwind)) :
    ∃ s' σ, invokeToCall e captures s = .ok true s' ∧ Accepted f s s' e σ := by
  have hin : e ∈ (s.program.block b).instrs := by
    rw [hb]
    exact List.mem_append_right _ List.mem_cons_self
  have hlive := hp.instr_live hin
  obtain ⟨call, p₁, hinsert₁, hcall⟩ := insert_before_of_mem hp hb
    (s.program.draftCall callee (s.program.instr e).arguments none)
  have hp₁ := (hcall.evolves hp).1
  have hb₁ : (p₁.block b).instrs = (front ++ [call]) ++ e :: back := by
    rw [hcall.after, List.append_assoc]
    rfl
  obtain ⟨new, p₂, hinsert₂, hbr⟩ := insert_before_of_mem hp₁ hb₁ (draftBr normal)
  obtain ⟨q, hq⟩ : ∃ q, (p₂.takeName e call).replaceUses (.instr e) (.instr call) = q := ⟨_, rfl⟩
  have hlow : LoweredTo s.program q e call new callee normal b front back :=
    hq ▸ lowered_of_inserted hp hcall hbr
  have hgrounded : s.program.Grounded → q.Grounded := fun hground =>
    hq ▸ grounded_lowered hground hlive hcall hbr
  have hneat : ∀ D, e ∉ D → Neat D s.program → Neat (e :: D) q := fun D he hD =>
    hq ▸ neat_lowered hD he hkind hcallee hdest hcall hbr
  have hexit : q.exit? b = some new := (hlow.exit hp hfront).2
  obtain ⟨r, hcut, hrelieved, hkinds, hmirrors'⟩ := cut_away (f := f)
    (relieved_lowered hlow hgrounded hneat) hexit hlow.branch.1 hlow.branch.2 unwind
  have hindex : call.index < q.instrs.size := by
    rw [hlow.fresh, hlow.size]
    exact Nat.lt_add_of_pos_right (Nat.zero_lt_succ 1)
  have hterm : (s.program.instr e).isTerminator = true := by
    rw [Instr.isTerminator, hkind]
    rfl
  have hedges : (s.program.instr e).successors = [normal, unwind] := by
    rw [Instr.successors, hkind, hdest]
  have hdiverted := hlow.diverted hp
  have hsheds : ∀ D, e ∉ D → WellEnded D f s.program →
      WellEnded (e :: D) f r ∧ Sheds f s.program r := fun D he hwell =>
    ⟨hdiverted.cut_wellEnded hlow.sound hfront hterm hcut hp he hwell,
      hdiverted.cut_sheds hlow.sound hfront hterm hcut (.inl hedges) hwell.plain⟩
  refine ⟨⟨r, s.scheduled ++ [⟨e, none⟩], s.extra⟩, Function.update id e call, ?_, rfl,
    ⟨new, hrelieved⟩, fun hground => .trans ?_ hmirrors', hsheds, fun a => ?_⟩
  · have hprogram : (program : Replacing Unit Program) s = .ok s.program s := rfl
    have hchange : (change fun p => (p.takeName e call).replaceUses (.instr e) (.instr call) :
        Replacing Unit PUnit) ⟨p₂, s.scheduled, s.extra⟩ = .ok ⟨⟩ ⟨q, s.scheduled, s.extra⟩ := by
      rw [← hq]
      rfl
    unfold invokeToCall
    rw [bind_of_ok hprogram]
    dsimp only
    rw [hcallee, hdest]
    dsimp only
    rw [bind_of_ok hprogram, bind_of_ok (edit_ok.mpr ⟨p₁, hinsert₁, rfl⟩),
      bind_of_ok (edit_ok.mpr ⟨p₂, hinsert₂, rfl⟩), bind_of_ok hchange]
    by_cases hne : unwind ≠ normal
    · rw [if_pos hne.symm] at hcut
      rw [if_pos hne, hp.mem_instrs.mp hin]
      exact (bind_of_ok (a := ()) (edit_ok.mpr ⟨r, attempt_ok.mpr hcut, rfl⟩) _).trans rfl
    · rw [if_neg fun h => hne (Ne.symm h)] at hcut
      rw [if_neg hne]
      cases hcut
      rfl
  · exact mirrors_lowered hp hlow hground hfront hkind hcallee hdest
  · by_cases ha : a = e
    · subst ha
      rw [Function.update_self]
      refine .inr ⟨rfl, hkind, Nat.lt_of_lt_of_le hindex hkinds.size, ?_⟩
      rw [hkinds.plain call hindex (by rw [Instr.isPhi, hlow.call.1])]
      exact hlow.call.1
    · exact .inl (Function.update_of_ne ha _ _)

end

/-! ## 4. Trying the rules -/

theorem invokeToCall_declines (h : (s.program.instr e).calledFunction? = none ∨
    (s.program.instr e).invokeDestinations? = none) : invokeToCall e captures s = .ok false s := by
  have hprogram : (program : Replacing Unit Program) s = .ok s.program s := rfl
  unfold invokeToCall
  rw [bind_of_ok hprogram]
  dsimp only
  rcases h with h | h
  · rw [h]
    rfl
  · rw [h]
    cases (s.program.instr e).calledFunction? <;> rfl

/-! ## 5. A round -/

/-- An instruction that has not been looked at. If it is a terminator, it is the only one of its
    block and the last instruction there. -/
def Untouched (p : Program) (a : InstrId) : Prop :=
  ∃ b, a ∈ (p.block b).instrs ∧ ((p.instr a).isTerminator = true →
    ∃ front, (p.block b).instrs = front ++ [a] ∧ ∀ x ∈ front, (p.instr x).isTerminator = false)

theorem Untouched.live {p : Program} {a : InstrId} (h : Untouched p a) (hp : p.Sound) :
    (p.instr a).erased = false := by
  obtain ⟨b, hin, -⟩ := h
  exact hp.instr_live hin

theorem Untouched.relieve {p q : Program} {a new : InstrId} (h : Untouched p a) (hp : p.Sound)
    (hterm : (p.instr e).isTerminator = true) (hne : a ≠ e) (hrelieved : Relieved p q e new) :
    Untouched q a := by
  have hsame : ∀ {c x}, x ∈ (p.block c).instrs →
      (q.instr x).isTerminator = (p.instr x).isTerminator := fun hx =>
    hrelieved.kinds.isTerminator (instr_lt_of_live (hp.instr_live hx))
  obtain ⟨b, hin, hlast⟩ := h
  refine ⟨b, (hrelieved.blocks b).subset hin, fun ha => ?_⟩
  obtain ⟨front, hinstrs, hfront⟩ := hlast ((hsame hin).symm.trans ha)
  -- `e` stands in another block: here only `a` is a terminator
  have hout : e ∉ (p.block b).instrs := by
    rw [hinstrs]
    intro he
    rcases List.mem_append.mp he with he | he
    · rw [hfront e he] at hterm
      cases hterm
    · exact hne (List.mem_singleton.mp he).symm
  refine ⟨front, (hrelieved.others b hout).trans hinstrs, fun x hx => ?_⟩
  rw [hsame (c := b) (hinstrs ▸ List.mem_append_left _ hx)]
  exact hfront x hx

/-- A round is under way: `todo` has not been looked at. -/
structure Round (p : Program) (f : FuncId) (lowers : Bool) (todo : List InstrId)
    (s : RuleState Unit) (σ : InstrId → InstrId) : Prop where
  sound : s.program.Sound
  grounded : p.Grounded → s.program.Grounded
  mirrors : p.Grounded → Mirrors σ f p s.program
  neat : Neat [] p → Neat (s.scheduled.map (·.old)) s.program
  sheds : WellEnded [] f p →
    WellEnded (s.scheduled.map (·.old)) f s.program ∧ Sheds f p s.program
  renamed : ∀ a, σ a = a ∨ lowers = true ∧ (p.instr a).kind = .invoke ∧
    (σ a).index < s.program.instrs.size ∧ (s.program.instr (σ a)).kind = .call .none
  invokes : ∀ a ∈ todo, (s.program.instr a).kind = .invoke → (p.instr a).kind = .invoke
  deletes : ∀ r ∈ s.scheduled, r.new = none
  behind : ∀ a ∈ s.scheduled.map (·.old), ∃ t, t ∉ s.scheduled.map (·.old) ++ todo ∧
    s.program.Behind t a
  untouched : ∀ a ∈ todo, Untouched s.program a
  nodup : (s.scheduled.map (·.old) ++ todo).Nodup

section

variable {p : Program} {lowers : Bool} {todo : List InstrId} {σ τ : InstrId → InstrId}
  {s' : RuleState Unit}

theorem Round.decline (h : Round p f lowers (e :: todo) s σ) : Round p f lowers todo s σ := by
  have hsub : (s.scheduled.map (·.old) ++ todo).Sublist (s.scheduled.map (·.old) ++ e :: todo) :=
    (List.Sublist.refl _).append (List.sublist_cons_self _ _)
  refine ⟨h.sound, h.grounded, h.mirrors, h.neat, h.sheds, h.renamed,
    fun a ha => h.invokes a (List.mem_cons_of_mem _ ha), h.deletes, fun a ha => ?_,
    fun a ha => h.untouched a (List.mem_cons_of_mem _ ha), h.nodup.sublist hsub⟩
  obtain ⟨t, ht, hbehind⟩ := h.behind a ha
  exact ⟨t, fun hmem => ht (hsub.subset hmem), hbehind⟩

theorem Round.index_lt (h : Round p f lowers todo s σ) {a : InstrId}
    (ha : a ∈ s.scheduled.map (·.old) ++ todo) : a.index < s.program.instrs.size := by
  refine instr_lt_of_live ?_
  rcases List.mem_append.mp ha with ha | ha
  · obtain ⟨t, -, -, b, hsub⟩ := h.behind a ha
    exact h.sound.instr_live (hsub.subset (List.mem_cons_of_mem _ (List.mem_singleton_self a)))
  · exact (h.untouched a ha).live h.sound

theorem Round.accept (h : Round p f lowers (e :: todo) s σ)
    (hterm : (s.program.instr e).isTerminator = true) (ha : Accepted f s s' e τ)
    (hlowers : ∀ a, τ a ≠ a → lowers = true) : Round p f lowers todo s' (τ ∘ σ) := by
  obtain ⟨new, hrelieved⟩ := ha.relieved
  have hkinds := hrelieved.kinds
  have holds : s'.scheduled.map (·.old) = s.scheduled.map (·.old) ++ [e] := by
    rw [ha.scheduled, List.map_append]
    rfl
  have hall : s'.scheduled.map (·.old) ++ todo = s.scheduled.map (·.old) ++ e :: todo := by
    rw [holds, List.append_assoc]
    rfl
  have hnot : e ∉ s.scheduled.map (·.old) := fun hmem =>
    (List.nodup_append.mp h.nodup).2.2 e hmem e List.mem_cons_self rfl
  refine ⟨hrelieved.sound, fun hground => hrelieved.grounded (h.grounded hground),
    fun hground => (h.mirrors hground).trans (ha.mirrors (h.grounded hground)),
    fun hp => ?_, fun hp => ?_, fun a => ?_,
    fun a hmem hinvoke => ?_, fun r hr => ?_, fun a hmem => ?_, fun a hmem => ?_, hall ▸ h.nodup⟩
  · rw [holds]
    refine (hrelieved.neat _ hnot (h.neat hp)).congr fun i => ?_
    rw [List.mem_append, List.mem_singleton, List.mem_cons, or_comm]
  · obtain ⟨hwell, hsheds⟩ := h.sheds hp
    obtain ⟨hwell', hsheds'⟩ := ha.sheds _ hnot hwell
    rw [holds]
    exact ⟨hwell'.mono (List.perm_append_singleton e _).symm.subset, hsheds.trans hsheds'⟩
  · rw [Function.comp_apply]
    rcases h.renamed a with hsame | ⟨hl, hinvoke, hlt, hcall⟩
    · rw [hsame]
      rcases ha.renamed a with hsame' | ⟨rfl, hinvoke, hlt, hcall⟩
      · exact .inl hsame'
      · by_cases hne : τ a = a
        · exact .inl hne
        · exact .inr ⟨hlowers a hne, h.invokes a List.mem_cons_self hinvoke, hlt, hcall⟩
    · rcases ha.renamed (σ a) with hsame' | ⟨heq, hinvoke', -⟩
      · rw [hsame']
        refine .inr ⟨hl, hinvoke, Nat.lt_of_lt_of_le hlt hkinds.size, ?_⟩
        rw [hkinds.plain _ hlt (by rw [Instr.isPhi, hcall])]
        exact hcall
      · -- a call is no invoke
        rw [← heq, hcall] at hinvoke'
        cases hinvoke'
  · refine h.invokes a (List.mem_cons_of_mem _ hmem) ?_
    rw [← hkinds.kind_of (h.index_lt (List.mem_append_right _ (List.mem_cons_of_mem _ hmem)))
      (by rw [Instr.isPhi, hinvoke])]
    exact hinvoke
  · rw [ha.scheduled] at hr
    rcases List.mem_append.mp hr with hr | hr
    · exact h.deletes r hr
    · rw [List.mem_singleton.mp hr]
  · rw [hall]
    rw [holds] at hmem
    rcases List.mem_append.mp hmem with hmem | hmem
    · obtain ⟨t, ht, hbehind, b, hsub⟩ := h.behind a hmem
      have hin := hsub.subset (List.mem_cons_self (a := t))
      refine ⟨t, ht, ?_, b, hsub.trans (hrelieved.blocks b)⟩
      rw [hkinds.isTerminator (instr_lt_of_live (h.sound.instr_live hin))]
      exact hbehind
    · rw [List.mem_singleton.mp hmem]
      refine ⟨new, fun hnew => ?_, hrelieved.behind⟩
      exact Nat.lt_irrefl _ (Nat.lt_of_lt_of_le (h.index_lt hnew) hrelieved.fresh)
  · refine (h.untouched a (List.mem_cons_of_mem _ hmem)).relieve h.sound hterm ?_ hrelieved
    rintro rfl
    exact (List.nodup_cons.mp (List.nodup_append.mp h.nodup).2.1).1 hmem

theorem Round.visit (h : Round p f lowers (e :: todo) s σ) :
    ∃ accepted s' σ', applyFirst (controlFlowRules lowers) e s = .ok accepted s' ∧
      Round p f lowers todo s' σ' := by
  have hprogram : (program : Replacing Unit Program) s = .ok s.program s := rfl
  have huntouched := h.untouched e List.mem_cons_self
  have hlive := huntouched.live h.sound
  obtain ⟨b, -, hlast⟩ := huntouched
  have hterminates : (s.program.instr e).kind = .br ∨ (s.program.instr e).kind = .invoke →
      (s.program.instr e).isTerminator = true := by
    rintro (hkind | hkind)
    all_goals
      rw [Instr.isTerminator, hkind]
      rfl
  rw [applyFirst, bind_of_ok hprogram, if_neg (by rw [hlive]; exact Bool.false_ne_true),
    controlFlowRules]
  cases hbranch : match? (σ := Unit) (.of (.branch (Pattern.constInt.as "cond")
      (Pattern.block.as "if_false") (Pattern.block.as "if_true")) settleBranch) s.program e with
  | some captures =>
    obtain ⟨hkind, bits, n, no, yes, hoperands, hcond, htrue, hfalse⟩ :=
      Pattern.branch_captures hbranch
    have hterm := hterminates (.inl hkind)
    obtain ⟨front, hb, hfront⟩ := hlast hterm
    obtain ⟨s', hrun, haccepted⟩ := settleBranch_accepts (f := f) h.sound hb hfront hkind
      hoperands hcond htrue hfalse
    exact ⟨true, s', _, firstAccepting_of_true hbranch rfl hrun,
      h.accept hterm haccepted fun a hne => absurd rfl hne⟩
  | none =>
    rw [firstAccepting_of_none hbranch]
    cases lowers with
    | false => exact ⟨false, s, σ, rfl, h.decline⟩
    | true =>
      rw [if_pos rfl]
      cases hinvoke : match? (σ := Unit) (.of .invoke invokeToCall) s.program e with
      | none =>
        rw [firstAccepting_of_none hinvoke]
        exact ⟨false, s, σ, rfl, h.decline⟩
      | some captures =>
        have hkind := invoke_matched hinvoke
        have hterm := hterminates (.inr hkind)
        obtain ⟨front, hb, hfront⟩ := hlast hterm
        by_cases hsays : (s.program.instr e).calledFunction? = none ∨
            (s.program.instr e).invokeDestinations? = none
        · rw [firstAccepting_of_false hinvoke rfl (invokeToCall_declines hsays)]
          exact ⟨false, s, σ, rfl, h.decline⟩
        · obtain ⟨hcallee, hdest⟩ := not_or.mp hsays
          obtain ⟨callee, hcallee⟩ := Option.ne_none_iff_exists'.mp hcallee
          obtain ⟨⟨normal, unwind⟩, hdest⟩ := Option.ne_none_iff_exists'.mp hdest
          obtain ⟨s', τ, hrun, haccepted⟩ := invokeToCall_accepts (f := f) h.sound hb
            hfront hkind hcallee hdest
          exact ⟨true, s', _, firstAccepting_of_true hinvoke rfl hrun,
            h.accept hterm haccepted fun _ _ => rfl⟩

theorem Round.run (h : Round p f lowers todo s σ) :
    ∃ s' σ', (todo.forM fun e => discard (applyFirst (controlFlowRules lowers) e)) s = .ok ⟨⟩ s' ∧
      Round p f lowers [] s' σ' := by
  induction todo generalizing s σ with
  | nil => exact ⟨s, σ, rfl, h⟩
  | cons e todo ih =>
    obtain ⟨accepted, s₁, σ₁, happly, h₁⟩ := h.visit
    obtain ⟨s', σ', hrest, h'⟩ := ih h₁
    refine ⟨s', σ', ?_, h'⟩
    have hdiscard : (discard (applyFirst (controlFlowRules lowers) e) : Replacing Unit PUnit) s =
        .ok ⟨⟩ s₁ := (bind_of_ok happly _).trans rfl
    exact (bind_of_ok hdiscard _).trans hrest

end

end Replacing

namespace Program

open Replacing

variable {p q : Program} {f : FuncId}

/-! ## 6. What is scheduled goes -/

theorem Behind.delete {t a x : InstrId} {b : BlockId} (h : p.Behind t a) (hdel : Deleted p q x b)
    (ht : t ≠ x) (ha : a ≠ x) : q.Behind t a := by
  obtain ⟨hterm, c, hsub⟩ := h
  refine ⟨by rwa [Instr.isTerminator, hdel.kind] , c, ?_⟩
  by_cases hc : c = b
  · have hfilter := hsub.filter (· != x)
    rw [hc, hdel.block, ← hc]
    simpa [ht, ha] using hfilter
  · rw [hdel.others c hc]
    exact hsub

theorem replaceEach_mirrors {rs : List Replacement} (hp : p.Sound)
    (hdeletes : ∀ r ∈ rs, r.new = none) (hnodup : (rs.map (·.old)).Nodup)
    (hbehind : ∀ a ∈ rs.map (·.old), ∃ t, t ∉ rs.map (·.old) ∧ p.Behind t a) :
    ∃ q, replaceEach rs p = .ok rs.length q ∧ Mirrors id f p q ∧
      (∀ a, (q.instr a).kind = (p.instr a).kind) ∧ (Neat (rs.map (·.old)) p → Neat [] q) ∧
        Sheds f p q ∧ (WellEnded (rs.map (·.old)) f p → WellEnded [] f q) := by
  induction rs generalizing p with
  | nil => exact ⟨p, rfl, .refl p f, fun _ => rfl, id, .refl f p, id⟩
  | cons r rs ih =>
    rw [List.map_cons] at hnodup hbehind
    obtain ⟨hnot, hnodup⟩ := List.nodup_cons.mp hnodup
    obtain ⟨t, ht, hr⟩ := hbehind r.old List.mem_cons_self
    obtain ⟨b, hsub⟩ := hr.2
    have hin := hsub.subset (List.mem_cons_of_mem _ (List.mem_singleton_self r.old))
    obtain ⟨q, hdelete, hdel⟩ := deleteInstr_deleted hp hin
    obtain ⟨hsheds, hwell⟩ := hdel.sheds (f := f) (D := rs.map (·.old)) hp hr hin
    obtain ⟨q', hrest, hmirrors, hkinds, hneat, hsheds', hwell'⟩ := ih hdel.sound
      (fun x hx => hdeletes x (List.mem_cons_of_mem _ hx)) hnodup fun a ha => by
        obtain ⟨t', ht', h⟩ := hbehind a (List.mem_cons_of_mem _ ha)
        obtain ⟨hne, hout⟩ := not_or.mp fun hmem => ht' (List.mem_cons.mpr hmem)
        refine ⟨t', hout, h.delete hdel hne ?_⟩
        rintro rfl
        exact hnot ha
    refine ⟨q', ?_, (mirrors_deleted hp hr hdel hin).trans hmirrors,
      fun a => (hkinds a).trans (hdel.kind a), fun h => hneat (h.deleteInstr hdelete),
      hsheds.trans hsheds', fun h => hwell' (hwell h)⟩
    have hone : Edit.attempt (·.replaceOne r) p = .ok () q := by
      refine attempt_ok.mpr ?_
      rw [replaceOne, hdeletes r List.mem_cons_self]
      exact hdelete
    rw [replaceEach, get_bind, if_neg (by rw [hp.instr_live hin]; exact Bool.false_ne_true),
      bind_of_ok hone, bind_of_ok hrest]
    rfl

/-! ## 7. The round as a whole -/

/-- Every terminator of the function ends its block alone. -/
def EndsAlone (p : Program) (f : FuncId) : Prop :=
  ∀ b ∈ (p.func f).blocks, ∀ a ∈ (p.block b).instrs, (p.instr a).isTerminator = true →
    ∃ front, (p.block b).instrs = front ++ [a] ∧ ∀ x ∈ front, (p.instr x).isTerminator = false

theorem endsAlone_of_fits (hp : p.Sound)
    (hfits : ∀ b ∈ (p.func f).blocks, p.blockProblems f b = []) : EndsAlone p f := by
  intro b hb a hin hterm
  have hblock := blockProblems_eq_nil.mp (hfits b hb)
  obtain ⟨front, hinstrs⟩ := List.getLast?_eq_some_iff.mp ((hblock.instrs a hin).last hterm)
  refine ⟨front, hinstrs, fun x hx => Bool.eq_false_iff.mpr fun hx' => ?_⟩
  have hmem : x ∈ (p.block b).instrs := hinstrs ▸ List.mem_append_left _ hx
  have hlast := (hblock.instrs x hmem).last hx'
  rw [(hblock.instrs a hin).last hterm] at hlast
  obtain rfl := Option.some.inj hlast
  exact (hp.not_mem_beside hinstrs).1 hx

theorem WellEnded.endsAlone (h : WellEnded [] f p) : EndsAlone p f := by
  intro b hb a hin hterm
  obtain ⟨front, back, hinstrs, hfront, hback⟩ := h.ends b hb a hin List.not_mem_nil hterm
  rw [List.subset_nil.mp hback] at hinstrs
  exact ⟨front, hinstrs, hfront⟩

theorem round_start (hp : p.Sound) (halone : EndsAlone p f) (lowers : Bool) :
    Round p f lowers (p.instrsOf f) ⟨p, [], ()⟩ id := by
  refine ⟨hp, id, fun _ => .refl p f, id, fun h => ⟨h, .refl f p⟩, fun a => .inl rfl,
    fun a _ hkind => hkind, fun r hr => absurd hr List.not_mem_nil,
    fun a ha => absurd ha List.not_mem_nil, fun a ha => ?_, hp.nodup_instrsOf f⟩
  obtain ⟨b, hb, hin⟩ := List.mem_flatMap.mp ha
  exact ⟨b, hin, halone b hb a hin⟩

theorem round_succeeds (hp : p.Sound) (halone : EndsAlone p f) (lowers : Bool) :
    ∃ schedule q r σ,
      scheduleAll (controlFlowRules lowers) (p.instrsOf f) p = .ok schedule q ∧
      carryOut schedule q = .ok schedule.length r ∧
      (∀ a, σ a = a ∨ lowers = true ∧ (p.instr a).kind = .invoke ∧
        (r.instr (σ a)).kind = .call .none) ∧
      (p.Grounded → Mirrors σ f p r) ∧ (Neat [] p → Neat [] r) ∧
      (WellEnded [] f p → WellEnded [] f r ∧ Sheds f p r) := by
  obtain ⟨s, σ, hrun, h⟩ := (round_start hp halone lowers).run
  have hnodup : (s.scheduled.map (·.old)).Nodup := by
    have hall := h.nodup
    rwa [List.append_nil] at hall
  have hreversed : s.scheduled.reverse.map (·.old) = (s.scheduled.map (·.old)).reverse :=
    List.map_reverse
  have hdeletes : ∀ x ∈ s.scheduled.reverse, x.new = none :=
    fun x hx => h.deletes x (List.mem_reverse.mp hx)
  obtain ⟨r, hreplace, hmirrors, hkinds, hneat, hsheds, hwell⟩ := replaceEach_mirrors (f := f)
    h.sound hdeletes (by rw [hreversed]; exact List.nodup_reverse.mpr hnodup) fun a ha => by
      rw [hreversed, List.mem_reverse] at ha
      obtain ⟨t, ht, hbehind⟩ := h.behind a ha
      rw [List.append_nil] at ht
      refine ⟨t, ?_, hbehind⟩
      rwa [hreversed, List.mem_reverse]
  refine ⟨s.scheduled, s.program, r, σ, ?_, ?_, fun a => ?_,
    fun hground => (h.mirrors hground).trans hmirrors, fun hp => hneat ?_, fun hp => ?_⟩
  · unfold scheduleAll
    dsimp only
    rw [hrun]
  · unfold carryOut
    rw [firstRepeated?_eq_none hnodup fun _ _ => List.not_mem_nil]
    refine compileEdit_ok.mpr ?_
    rw [hreplace, List.length_reverse]
  · refine (h.renamed a).imp_right fun hcall => ⟨hcall.1, hcall.2.1, ?_⟩
    rw [hkinds]
    exact hcall.2.2.2
  · rw [hreversed]
    exact (h.neat hp).congr fun _ => List.mem_reverse
  · obtain ⟨hwell₁, hsheds₁⟩ := h.sheds hp
    rw [hreversed] at hwell
    exact ⟨hwell (hwell₁.mono (List.reverse_perm _).symm.subset), hsheds₁.trans hsheds⟩

theorem round_carriedOut (hp : p.Sound) (hfits : ∀ b ∈ (p.func f).blocks, p.blockProblems f b = [])
    (lowers : Bool) :
    ∃ schedule q r σ,
      scheduleAll (controlFlowRules lowers) (p.instrsOf f) p = .ok schedule q ∧
      carryOut schedule q = .ok schedule.length r ∧
      (∀ a, σ a = a ∨ lowers = true ∧ (p.instr a).kind = .invoke ∧
        (r.instr (σ a)).kind = .call .none) ∧
      (p.Grounded → Mirrors σ f p r) ∧ (Neat [] p → Neat [] r) := by
  obtain ⟨schedule, q, r, σ, hschedule, hcarry, hrenamed, hmirrors, hneat, -⟩ :=
    round_succeeds hp (endsAlone_of_fits hp hfits) lowers
  exact ⟨schedule, q, r, σ, hschedule, hcarry, hrenamed, hmirrors, hneat⟩

/-- A round is never refused, and in every world the function does what it did, with calls for some
    invokes. -/
theorem controlFlowRules_mirrors (hp : p.Sound) (hground : p.Grounded)
    (hfits : ∀ b ∈ (p.func f).blocks, p.blockProblems f b = []) (assumeNoExcept : Bool) :
    ∃ schedule q r σ,
      scheduleAll (controlFlowRules assumeNoExcept) (p.instrsOf f) p = .ok schedule q ∧
      carryOut schedule q = .ok schedule.length r ∧
      (∀ a, σ a = a ∨ assumeNoExcept = true ∧ (p.instr a).kind = .invoke ∧
        (r.instr (σ a)).kind = .call .none) ∧
      Mirrors σ f p r := by
  obtain ⟨schedule, q, r, σ, hschedule, hcarry, hrenamed, hmirrors, -⟩ :=
    round_carriedOut hp hfits assumeNoExcept
  exact ⟨schedule, q, r, σ, hschedule, hcarry, hrenamed, hmirrors hground⟩

/-- An invoke, and a branch on a constant that never fails. Both could lead to a block with a phi. -/
def settled : Program where
  name := "settled"
  functions := #[
    ⟨"measure", .int 1, [], false, none, none, [], [], false⟩,
    ⟨"Main", .int 1, [], false, none, none, [], [⟨0⟩, ⟨1⟩, ⟨2⟩, ⟨3⟩], false⟩]
  blocks := #[
    ⟨some "entry", some ⟨1⟩, [⟨0⟩], false⟩,
    ⟨some "next", some ⟨1⟩, [⟨1⟩], false⟩,
    ⟨some "done", some ⟨1⟩, [⟨2⟩], false⟩,
    ⟨some "failed", some ⟨1⟩, [⟨3⟩, ⟨4⟩], false⟩]
  instrs := #[
    ⟨.invoke, .int 1, [.block ⟨1⟩, .block ⟨3⟩, .func ⟨0⟩], some "m", some ⟨0⟩, false⟩,
    ⟨.br, .void, [.int 1 (-1), .block ⟨3⟩, .block ⟨2⟩], none, some ⟨1⟩, false⟩,
    ⟨.ret, .void, [.instr ⟨0⟩], none, some ⟨2⟩, false⟩,
    ⟨.phi [⟨0⟩, ⟨1⟩], .int 1, [.int 1 0, .int 1 (-1)], some "reason", some ⟨3⟩, false⟩,
    ⟨.ret, .void, [.instr ⟨3⟩], none, some ⟨3⟩, false⟩]

theorem controlFlowRules_mirrors_settled : ∃ schedule q r σ,
    scheduleAll (controlFlowRules true) (settled.instrsOf ⟨1⟩) settled = .ok schedule q ∧
    carryOut schedule q = .ok schedule.length r ∧ Mirrors σ ⟨1⟩ settled r ∧
    ((q.block ⟨0⟩).instrs = [⟨5⟩, ⟨6⟩, ⟨0⟩] ∧ (q.block ⟨1⟩).instrs = [⟨7⟩, ⟨1⟩] ∧
      (q.instr ⟨3⟩).operands = []) := by
  have hground : settled.Grounded := by
    rintro ⟨i⟩ ⟨a⟩ hlive huses
    have hlt : i < 5 := instr_lt_of_live hlive
    have hi : i = 0 ∨ i = 1 ∨ i = 2 ∨ i = 3 ∨ i = 4 := by omega
    rcases hi with rfl | rfl | rfl | rfl | rfl
    all_goals simp [settled, instr, Instr.uses, Value.mentions] at huses
    all_goals
      subst huses
      decide
  obtain ⟨schedule, q, r, σ, hschedule, hcarry, -, hmirrors⟩ :=
    controlFlowRules_mirrors (p := settled) (f := ⟨1⟩) (by decide +kernel) hground (by decide +kernel) true
  obtain ⟨schedule', q', hsame, hafter⟩ := exists_ok
    (r := scheduleAll (controlFlowRules true) (settled.instrsOf ⟨1⟩) settled)
    (P := fun q => (q.block ⟨0⟩).instrs = [⟨5⟩, ⟨6⟩, ⟨0⟩] ∧ (q.block ⟨1⟩).instrs = [⟨7⟩, ⟨1⟩] ∧
      (q.instr ⟨3⟩).operands = []) (by decide +kernel)
  rw [hschedule] at hsame
  cases hsame
  exact ⟨schedule, q, r, σ, hschedule, hcarry, hmirrors, hafter⟩

end Program

end QirProfile
