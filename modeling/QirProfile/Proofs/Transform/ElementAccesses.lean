import QirProfile.Proofs.Rule.CarriedOut
import QirProfile.Proofs.Transform.VisitedOnce

/-!
# Where accesses to array elements leave the undefined value

The load of an array element gives way to an address, and the call and the conversion that it went through
are deleted along with it. Nobody asks whether something else uses them. So here it is told what becomes
of those who do.
-/

namespace QirProfile

/-! ## 1. Operands of what stays -/

namespace Value

variable {old o : InstrId} {new : Value}

mutual

theorem mentions_substitute_other (hne : o ≠ old) : (v : Value) →
    mentions (.instr o) v = true → mentions (.instr o) (substitute (.instr old) new v) = true
  | instr _ | arg _ _ | block _ | func _ | global _ | int _ _ | float _ _ | null _ | undef _
  | zero _ | bytes _ => by
    intro h
    unfold substitute
    split
    · rename_i heq
      rw [heq] at h
      simp only [mentions, beq_iff_eq, instr.injEq] at h
      exact absurd h.symm hne
    · exact h
  | array ty vs | struct ty vs => by
    intro h
    unfold substitute
    rw [if_neg nofun]
    simp only [mentions, Bool.or_eq_true, beq_iff_eq, reduceCtorEq, false_or] at h ⊢
    exact mentionsAny_substituteAll_other hne vs h
  | cast op v ty => by
    intro h
    unfold substitute
    rw [if_neg nofun]
    simp only [mentions, Bool.or_eq_true, beq_iff_eq, reduceCtorEq, false_or] at h ⊢
    exact mentions_substitute_other hne v h
  | gep inbounds source base vs ty => by
    intro h
    unfold substitute
    rw [if_neg nofun]
    simp only [mentions, Bool.or_eq_true, beq_iff_eq, reduceCtorEq, false_or] at h ⊢
    exact h.imp (mentions_substitute_other hne base) (mentionsAny_substituteAll_other hne vs)

theorem mentionsAny_substituteAll_other (hne : o ≠ old) : (vs : List Value) →
    mentionsAny (.instr o) vs = true → mentionsAny (.instr o) (substituteAll (.instr old) new vs) = true
  | [] => id
  | v :: vs => by
    intro h
    simp only [substituteAll, mentionsAny, Bool.or_eq_true] at h ⊢
    exact h.imp (mentions_substitute_other hne v) (mentionsAny_substituteAll_other hne vs)

end

end Value

namespace Program

open Value (mentions)

variable {p q : Program} {rs : List Replacement} {o : InstrId} {v : Value}

theorem mentions_handOver (h : mentions (.instr o) (p.handOver rs v) = true) :
    mentions (.instr o) v = true ∧ o ∉ rs.map (·.old) ∨ ∃ r ∈ rs, r.new = some o := by
  induction rs generalizing v with
  | nil => exact .inl ⟨h, List.not_mem_nil⟩
  | cons r rs ih =>
    rcases ih h with ⟨hv, hnot⟩ | ⟨x, hx, hnew⟩
    · by_cases hnew : r.new = some o
      · exact .inr ⟨r, List.mem_cons_self, hnew⟩
      have hheir : mentions (.instr o) (p.heir r) = false :=
        Bool.eq_false_iff.mpr (mt (mentions_heir p r o).mp hnew)
      by_cases hold : o = r.old
      · subst hold
        rw [Value.not_mentions_substitute rfl hheir] at hv
        cases hv
      · have hv := (Value.mentions_substitute rfl v hv).resolve_right (by simp [hheir])
        exact .inl ⟨hv, fun hmem => (List.mem_cons.mp hmem).elim hold hnot⟩
    · exact .inr ⟨x, List.mem_cons_of_mem r hx, hnew⟩

theorem mentions_handOver_of_not_mem (hv : mentions (.instr o) v = true)
    (ho : o ∉ rs.map (·.old)) : mentions (.instr o) (p.handOver rs v) = true := by
  induction rs generalizing v with
  | nil => exact hv
  | cons r rs ih =>
    obtain ⟨hne, hrest⟩ := not_or.mp (mt List.mem_cons.mpr ho)
    exact ih (Value.mentions_substitute_other hne v hv) hrest

theorem handOver_filter {keep : Replacement → Bool} (hv : ∀ r ∈ rs, keep r = false →
      mentions (.instr r.old) v = false ∧ ∀ x ∈ rs, x.new ≠ some r.old) :
    p.handOver (rs.filter keep) v = p.handOver rs v := by
  induction rs generalizing v with
  | nil => rfl
  | cons r rs ih =>
    cases hkeep : keep r with
    | false =>
      obtain ⟨hnot, -⟩ := hv r List.mem_cons_self hkeep
      have hsame : p.handOver (r :: rs) v = p.handOver rs v := by
        unfold handOver
        rw [List.foldl_cons, Value.substitute_of_not_mentions v hnot]
      rw [List.filter_cons_of_neg (by simp [hkeep]), hsame]
      refine ih fun x hx hx' => ?_
      obtain ⟨hnot, hnews⟩ := hv x (List.mem_cons_of_mem r hx) hx'
      exact ⟨hnot, fun y hy => hnews y (List.mem_cons_of_mem r hy)⟩
    | true =>
      rw [List.filter_cons_of_pos hkeep]
      refine ih fun x hx hx' => ?_
      obtain ⟨hnot, hnews⟩ := hv x (List.mem_cons_of_mem r hx) hx'
      refine ⟨Bool.eq_false_iff.mpr fun h => ?_, fun y hy => hnews y (List.mem_cons_of_mem r hy)⟩
      rcases Value.mentions_substitute rfl v h with h | h
      · rw [hnot] at h
        cases h
      · exact hnews r List.mem_cons_self ((mentions_heir p r x.old).mp h)

theorem map_handOver_filter {keep : Replacement → Bool} (hnodup : (rs.map (·.old)).Nodup)
    (hnews : ∀ r ∈ rs, ∀ a, r.new = some a → a ∉ rs.map (·.old)) (i : Instr) :
    i.operands.map (p.handOver rs) = i.operands.map (p.handOver (rs.filter keep)) ↔
      ∀ r ∈ rs, keep r = false → i.uses (.instr r.old) = false := by
  have hnew : ∀ r ∈ rs, ∀ x ∈ rs, x.new ≠ some r.old := fun r hr x hx heq =>
    hnews x hx r.old heq (List.mem_map_of_mem hr)
  rw [List.map_inj_left]
  constructor
  · refine fun hsame r hr hkeep => Bool.eq_false_iff.mpr fun huses => ?_
    obtain ⟨v, hv, hmentions⟩ := Instr.uses_iff.mp huses
    have hleft : r.old ∉ (rs.filter keep).map (·.old) := fun hmem => by
      obtain ⟨x, hx, heq⟩ := List.mem_map.mp hmem
      obtain rfl := List.inj_on_of_nodup_map hnodup (List.mem_of_mem_filter hx) hr heq
      rw [(List.mem_filter.mp hx).2] at hkeep
      cases hkeep
    have hstays := mentions_handOver_of_not_mem (p := p) hmentions hleft
    rw [← hsame v hv] at hstays
    rcases mentions_handOver hstays with ⟨-, hnot⟩ | ⟨x, hx, hx'⟩
    · exact hnot (List.mem_map_of_mem hr)
    · exact hnew r hr x hx hx'
  · refine fun hunused v hv => (handOver_filter fun r hr hkeep => ⟨?_, hnew r hr⟩).symm
    exact Bool.eq_false_iff.mpr fun h =>
      Bool.eq_false_iff.mp (hunused r hr hkeep) (Instr.uses_iff.mpr ⟨v, hv, h⟩)

theorem handOver_old {r : Replacement} (hnodup : (rs.map (·.old)).Nodup)
    (hnews : ∀ r ∈ rs, ∀ a, r.new = some a → a ∉ rs.map (·.old)) (hr : r ∈ rs) :
    p.handOver rs (.instr r.old) = p.heir r := by
  induction rs with
  | nil => cases hr
  | cons x rs ih =>
    obtain ⟨hnot, hnodup⟩ := List.nodup_cons.mp hnodup
    obtain ⟨hx, hnews⟩ := List.forall_mem_cons.mp hnews
    rcases List.mem_cons.mp hr with rfl | hr
    · have hself : Value.substitute (.instr r.old) (p.heir r) (.instr r.old) = p.heir r :=
        ((Value.flat_of_isLocal rfl).substitute rfl _).trans (if_pos rfl)
      have hnone : p.handOver (rs.filter fun _ => false) (p.heir r) = p.handOver rs (p.heir r) := by
        refine handOver_filter fun y hy _ => ⟨?_, fun z hz hz' => ?_⟩
        · refine Bool.eq_false_iff.mpr fun h => ?_
          exact hx y.old ((mentions_heir p r y.old).mp h) (List.mem_cons_of_mem _ (List.mem_map_of_mem hy))
        · exact hnews z hz y.old hz' (List.mem_cons_of_mem _ (List.mem_map_of_mem hy))
      rw [List.filter_false] at hnone
      unfold handOver at hnone ⊢
      rw [List.foldl_cons, hself, ← hnone]
      rfl
    · have hne : r.old ≠ x.old := fun heq => hnot (List.mem_map.mpr ⟨r, hr, heq⟩)
      have hother : Value.substitute (.instr x.old) (p.heir x) (.instr r.old) = .instr r.old :=
        ((Value.flat_of_isLocal rfl).substitute rfl _).trans (if_neg (by simpa using hne))
      unfold handOver at ih ⊢
      rw [List.foldl_cons, hother]
      exact ih hnodup (fun y hy a ha hmem => hnews y hy a ha (List.mem_cons_of_mem _ hmem)) hr

/-! ## 2. Parts of accesses -/

theorem Calls.congr {i : InstrId} {name : String} (hframe : p.SameFrame q)
    (hinstr : ∀ i, q.instr i = p.instr i) : q.Calls i name ↔ p.Calls i name := by
  unfold Calls
  simp only [hinstr, fun k => (hframe.func k).2.2]

theorem Spliced.calls_iff (h : Spliced rs p q) {i : InstrId} {name : String} :
    q.Calls i name ↔ p.Calls i name := by
  unfold Calls
  simp only [h.func, ← (h.instr i).2.2.callee]

theorem ElementPart.congr {i : InstrId} (hframe : p.SameFrame q)
    (hinstr : ∀ i, q.instr i = p.instr i) : q.ElementPart i ↔ p.ElementPart i :=
  or_congr (by rw [hinstr]) (Calls.congr hframe hinstr)

theorem ElementPart.not_fetch {i : InstrId} (h : p.ElementPart i) : ¬ p.Fetch i := by
  rcases h with hcast | hcalls
  · rintro (hfetch | hfetch) <;> exact hfetch.not_cast hcast
  · rintro (hfetch | hfetch) <;> exact absurd (hcalls.unique hfetch) (by decide)

/-- A schedule without the deletions that go along with accesses to array elements. -/
def besidesElements (p : Program) (rs : List Replacement) : List Replacement :=
  rs.filter fun r => !decide (p.ElementPart r.old)

end Program

namespace Replacing

open Program

theorem Gathered.elementPart {p : Program} {done : List InstrId} {T : Traces}
    {s : RuleState Addresses} (h : Gathered p done T s) {r : Replacement} (hr : r ∈ s.scheduled)
    (hpart : s.program.ElementPart r.old) : r.new = none ∧ ∃ load address,
      ⟨load, some address⟩ ∈ s.scheduled ∧ ∃ align, (s.program.instr load).kind = .load align := by
  rcases h.origin r hr with ⟨-, htarget⟩ | ⟨hnone, hfetch | ⟨-, halong⟩⟩
  · exact absurd hpart.bystander htarget.not_bystander
  · exact absurd hfetch hpart.not_fetch
  · exact ⟨hnone, halong⟩

end Replacing

namespace Transform

open Program Replacing

/-! ## 3. Schedules of rules -/

/-- The call and the conversion behind a load go along with it, and exactly those instructions get
    an undefined value that use them and stay. -/
theorem applyRules_elementParts (settings : RuleSettings) (s : TransformSettings) {c c' : Compilation}
    {run : RuleRun} (hp : c.program.Sound) (hv : c.program.verify = .ok ())
    (hrun : runRules settings.rules s (s.entryPoints c.program) c = .ok run c') :
    ∃ n q, carryOut run.scheduled c'.program = .ok n q ∧
      (∀ r ∈ run.scheduled, c'.program.ElementPart r.old → (q.instr r.old).erased = true ∧
        r.new = none ∧ ∃ load address, ⟨load, some address⟩ ∈ run.scheduled ∧
          ∃ align, (c'.program.instr load).kind = .load align) ∧
      ∀ i, (c'.program.instr i).parent.isSome = true → i ∉ run.scheduled.map (·.old) →
        (q.instr i).erased = false ∧
        ((q.instr i).operands = (c'.program.instr i).operands.map
            (c'.program.handOver (c'.program.besidesElements run.scheduled.reverse)) ↔
          ∀ r ∈ run.scheduled, c'.program.ElementPart r.old →
            (c'.program.instr i).uses (.instr r.old) = false) ∧
        ∀ r ∈ run.scheduled, c'.program.ElementPart r.old →
          .instr r.old ∈ (c'.program.instr i).operands →
            .undef (c'.program.instr r.old).ty ∈ (q.instr i).operands := by
  have hverified := verify_ok.mp hv
  obtain ⟨done, q₀, ⟨T, hg⟩, hframe, hinstr⟩ := (runRules_collected hp hverified).of_ok hrun
  have hready : Ready run.scheduled c'.program := (runRules_ready hp hverified).of_ok hrun
  obtain ⟨n, q, hcarry, -⟩ := carryOut_spliced hready
  obtain ⟨-, -, hcarried, -⟩ := (carryOut_replaces hready.sound run.scheduled).2 n q hcarry
  have hreverse := hready.reverse
  have hnews := fun r hr a ha => (hreverse.guests r hr a ha).1
  have holds : ∀ {i}, i ∉ run.scheduled.map (·.old) → i ∉ run.scheduled.reverse.map (·.old) := by
    intro i hi
    rwa [List.map_reverse, List.mem_reverse]
  have hoperands := hcarried.operands
  rw [hreverse.pending] at hoperands
  refine ⟨n, q, hcarry, fun r hr hpart => ?_, fun i hi hstays => ⟨?_, ?_, fun r hr hpart hmem => ?_⟩⟩
  · obtain ⟨hnone, load, address, hload, align, hkind⟩ :=
      hg.elementPart hr ((ElementPart.congr hframe hinstr).mp hpart)
    exact ⟨hcarried.gone r (List.mem_reverse.mpr hr), hnone, load, address, hload, align,
      by rw [hinstr]; exact hkind⟩
  · obtain ⟨b, hb⟩ := Option.isSome_iff_exists.mp hi
    rw [hcarried.live i (holds hstays)]
    exact hready.sound.instr_live (hready.sound.mem_instrs.mpr hb)
  · rw [hoperands i (holds hstays) hi, besidesElements, map_handOver_filter hreverse.olds hnews]
    simp
  · obtain ⟨hnone, -⟩ := hg.elementPart hr ((ElementPart.congr hframe hinstr).mp hpart)
    have hheir : c'.program.handOver run.scheduled.reverse (.instr r.old) =
        .undef (c'.program.instr r.old).ty := by
      rw [handOver_old hreverse.olds hnews (List.mem_reverse.mpr hr), heir, hnone]
    rw [hoperands i (holds hstays) hi, ← hheir]
    exact List.mem_map_of_mem hmem

theorem applyRules_elementParts_sharing : ∃ run c n q,
    runRules ({} : RuleSettings).rules {} (({} : TransformSettings).entryPoints sharing)
        { program := sharing } = .ok run c ∧ carryOut run.scheduled c.program = .ok n q ∧
      (q.instr ⟨5⟩).operands = (c.program.instr ⟨5⟩).operands.map
        (c.program.handOver (c.program.besidesElements run.scheduled.reverse)) ∧
      .undef (c.program.instr ⟨2⟩).ty ∈ (q.instr ⟨6⟩).operands := by
  obtain ⟨run, c, hrun, hscheduled, hattached, hcall, hpart, hmem⟩ := exists_answer
    (r := runRules ({} : RuleSettings).rules {} (({} : TransformSettings).entryPoints sharing)
      { program := sharing })
    (P := fun run c => (⟨⟨2⟩, none⟩ ∈ run.scheduled ∧ ⟨5⟩ ∉ run.scheduled.map (·.old) ∧
        ⟨6⟩ ∉ run.scheduled.map (·.old)) ∧
      ((c.program.instr ⟨5⟩).parent.isSome = true ∧ (c.program.instr ⟨6⟩).parent.isSome = true) ∧
      (∀ r ∈ run.scheduled, c.program.ElementPart r.old →
        (c.program.instr ⟨5⟩).uses (.instr r.old) = false) ∧
      c.program.ElementPart ⟨2⟩ ∧ .instr ⟨2⟩ ∈ (c.program.instr ⟨6⟩).operands) (by decide +kernel)
  obtain ⟨n, q, hcarry, -, hstays⟩ := applyRules_elementParts {} {} (c := { program := sharing })
    (by decide +kernel) (by rfl) hrun
  exact ⟨run, c, n, q, hrun, hcarry,
    (hstays ⟨5⟩ hattached.1 hscheduled.2.1).2.1.mpr hcall,
    (hstays ⟨6⟩ hattached.2 hscheduled.2.2).2.2 _ hscheduled.1 hpart hmem⟩

/-- A conversion that a second instruction uses goes all the same. -/
theorem sharing_left_undefined : sharing.Sound ∧ sharing.verify = .ok () ∧ ∃ stats c,
    applyRules ({} : RuleSettings).rules {} {} { program := sharing } = .ok stats c ∧
      (c.program.instr ⟨6⟩).parent = some ⟨0⟩ ∧ (c.program.instr ⟨6⟩).operands =
        [.null (.ptr (.named "Qubit")), .undef (.ptr (.ptr (.named "Qubit")))] :=
  ⟨by decide +kernel, by rfl, exists_ok (by decide +kernel)⟩

end Transform

end QirProfile
