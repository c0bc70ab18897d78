import QirProfile.Proofs.Rule.Finding
import QirProfile.Proofs.Rule.Visits

/-!
# Rules are careful

A rule may schedule only what can go: neither the end of a block nor something that others still
refer to. The rules for calls do not ask whether they have found a call or an invoke. Most of them look
at the operands, and those of an invoke do not fit (`Program.CallsWith.removable`). Only the rules
that remove calls by name take the end of a block away where they find it (`QuietAt`).
-/

namespace QirProfile

variable {u : Unit} {start : Int} {ty : Ty} {address : InstrId}

/-- The instruction is no invoke of a function with one of these names. -/
def Program.QuietAt (names : List String) (p : Program) (id : InstrId) : Prop :=
  (p.instr id).kind = .invoke →
    ∀ k, (p.instr id).calledFunction? = some k → (p.func k).name ∉ names

namespace Replacing

open Program Pattern

variable {settings : RuleSettings} {names : List String} {s s' : RuleState Addresses} {id : InstrId}
  {c : Captures} {width : Nat}

/-! ## 1. Scheduling -/

/-- What holds of the state of rules at work. -/
def Working (names : List String) (s : RuleState Addresses) : Prop :=
  AtWork names s.scheduled s.program

theorem Working.directed (hs : Working names s) (i : InstrId) : s.program.Directed i :=
  fun hlive hinvoke => (hs.calm i hlive hinvoke).1

theorem Working.scheduleDelete (hs : Working names s)
    (hid : (s.program.instr id).kind.Replaceable) (h : scheduleDelete id s = .ok u s') :
    Working names s' ∧ s'.program = s.program := by
  cases h
  exact ⟨hs.schedule hid nofun, rfl⟩

theorem Working.scheduleDeleteOnce (hs : Working names s)
    (hid : (s.program.instr id).kind.Replaceable) (h : scheduleDeleteOnce id s = .ok u s') :
    Working names s' ∧ s'.program = s.program := by
  unfold Replacing.scheduleDeleteOnce at h
  obtain ⟨scheduled, s₁, hask, h⟩ := bind_ok h
  cases hask
  split at h
  · obtain ⟨-, rfl⟩ := pure_ok h
    exact ⟨hs, rfl⟩
  · exact hs.scheduleDelete hid h

theorem Working.forM {u : PUnit} {o : Option InstrId} {f : InstrId → Replacing Addresses PUnit}
    (hs : Working names s) (ho : ∀ i, o = some i → (s.program.instr i).kind.Replaceable)
    (hf : ∀ i v t, (s.program.instr i).kind.Replaceable → f i s = .ok v t →
      Working names t ∧ t.program = s.program)
    (h : o.forM f s = .ok u s') : Working names s' ∧ s'.program = s.program := by
  cases o with
  | none =>
    cases h
    exact ⟨hs, rfl⟩
  | some i => exact hf i u s' (ho i rfl) h

/-! ## 2. Replacers that accept -/

theorem Working.deleteInstr (hs : Working names s) (hid : (s.program.instr id).kind.Replaceable)
    (h : deleteInstr id c s = .ok true s') : Working names s' := by
  cases h
  exact hs.schedule hid nofun

theorem Working.onQubits {α : Type} {f : Allocating α} {a : α} (hs : Working names s)
    (h : onQubits f s = .ok a s') : Working names s' ∧ s'.program = s.program := by
  obtain ⟨-, heq⟩ := onQubits_ok h
  rw [heq]
  exact ⟨hs, rfl⟩

theorem onResults_ok {α : Type} {f : Allocating α} {a : α} (h : onResults f s = .ok a s') :
    f s.extra.results = .ok a s'.extra.results ∧
      s' = { s with extra.results := s'.extra.results } := by
  unfold onResults at h
  split at h
  · rename_i results hf
    cases h
    exact ⟨hf, rfl⟩
  · cases h

theorem Working.releaseQubit (hs : Working names s) (hid : (s.program.instr id).kind.Replaceable)
    (h : releaseQubit id c s = .ok true s') : Working names s' := by
  unfold Replacing.releaseQubit at h
  cases hconst : c.int? "const" with
  | none =>
    rw [hconst] at h
    cases h
  | some address =>
    rw [hconst] at h
    dsimp only at h
    split at h
    · cases h
    obtain ⟨_, s₁, hrelease, h⟩ := bind_ok h
    obtain ⟨hs₁, hsame⟩ := hs.onQubits hrelease
    cases h
    exact hs₁.schedule (hsame ▸ hid) nofun

theorem Working.releaseArray (hs : Working names s) (hid : (s.program.instr id).kind.Replaceable)
    (h : releaseArray id c s = .ok true s') : Working names s' := by
  unfold Replacing.releaseArray at h
  obtain ⟨_, _, hget, h⟩ := bind_ok h
  obtain ⟨rfl, rfl⟩ := get_ok hget
  dsimp only at h
  split at h
  · exact hs.deleteInstr hid h
  · exact hs.releaseQubit hid h

theorem Working.substituteAddress {t : RuleState Addresses} (hs : Working names s)
    (hid : (s.program.instr id).kind.Replaceable)
    (haddress : staticAddress width start ty s = .ok address t)
    (h : substituteAddress id address t = .ok u s') : Working names s' := by
  cases haddress
  cases h
  exact (hs.promise hid ty width start).handOver (List.mem_append_right _ List.mem_cons_self)

theorem Working.allocateQubit (hs : Working names s) (hid : (s.program.instr id).kind.Replaceable)
    (h : allocateQubit width id c s = .ok true s') : Working names s' := by
  unfold Replacing.allocateQubit at h
  obtain ⟨_, _, hprogram, h⟩ := bind_ok h
  cases hprogram
  dsimp only at h
  split at h
  · cases h
  obtain ⟨start, s₁, hallocate, h⟩ := bind_ok h
  obtain ⟨hs₁, hsame⟩ := hs.onQubits hallocate
  obtain ⟨address, s₂, haddress, h⟩ := bind_ok h
  obtain ⟨_, s₃, hsubstitute, h⟩ := bind_ok h
  obtain ⟨-, rfl⟩ := pure_ok h
  exact hs₁.substituteAddress (hsame ▸ hid) haddress hsubstitute

theorem Working.allocateArray (hs : Working names s) (hid : (s.program.instr id).kind.Replaceable)
    (h : allocateArray width id c s = .ok true s') : Working names s' := by
  unfold Replacing.allocateArray at h
  obtain ⟨_, _, hprogram, h⟩ := bind_ok h
  cases hprogram
  cases hsize : c.int? "size" with
  | none =>
    rw [hsize] at h
    cases h
  | some size =>
    rw [hsize] at h
    dsimp only at h
    split at h
    · cases h
    obtain ⟨start, s₁, hallocate, h⟩ := bind_ok h
    obtain ⟨hs₁, hsame⟩ := hs.onQubits hallocate
    obtain ⟨address, s₂, haddress, h⟩ := bind_ok h
    -- the note that the array is empty is neither of the program nor of the schedule
    split at h
    · obtain ⟨_, s₃, hnote, h⟩ := bind_ok h
      obtain rfl := modify_ok hnote
      obtain ⟨_, s₄, hsubstitute, h⟩ := bind_ok h
      obtain ⟨-, rfl⟩ := pure_ok h
      cases haddress
      cases hsubstitute
      exact (hs₁.promise (hsame ▸ hid) _ width start).handOver
        (List.mem_append_right _ List.mem_cons_self)
    · obtain ⟨_, s₃, hsubstitute, h⟩ := bind_ok h
      obtain ⟨-, rfl⟩ := pure_ok h
      exact hs₁.substituteAddress (hsame ▸ hid) haddress hsubstitute

theorem Working.scheduleAddress {bits : Nat}
    {t : RuleState Addresses} (hs : Working names s)
    (hid : (s.program.instr id).kind.Replaceable)
    (haddress : staticAddress bits start ty s = .ok address t)
    (h : scheduleReplace id address t = .ok u s') :
    Working names s' ∧ ∀ i, (s.program.instr i).kind.Replaceable →
      (s'.program.instr i).kind.Replaceable := by
  cases haddress
  cases h
  refine ⟨hs.promise hid ty bits start, fun i hi => ?_⟩
  exact (congrArg Instr.kind (instr_createInstr_ne _ ty _ (ne_fresh (lt_of_replaceable hi)))).symm ▸
    hi

theorem Working.accessElement (hs : Working names s) (hid : (s.program.instr id).kind.Replaceable)
    (hgone : ∀ name ∈ ["getElement", "cast"], ∀ i, c.instr? name = some i →
      (s.program.instr i).kind.Replaceable)
    (h : accessElement width id c s = .ok true s') : Working names s' := by
  unfold Replacing.accessElement at h
  obtain ⟨_, _, hprogram, h⟩ := bind_ok h
  cases hprogram
  cases hstart : c.int? "arrayName" with
  | none =>
    rw [hstart] at h
    cases h
  | some start =>
    cases hindex : c.int? "index" with
    | none =>
      rw [hstart, hindex] at h
      cases h
    | some index =>
      rw [hstart, hindex] at h
      obtain ⟨address, s₁, haddress, h⟩ := bind_ok h
      obtain ⟨_, s₂, hreplace, h⟩ := bind_ok h
      obtain ⟨_, s₃, helement, h⟩ := bind_ok h
      obtain ⟨_, s₄, hcast, h⟩ := bind_ok h
      obtain ⟨-, rfl⟩ := pure_ok h
      obtain ⟨hs₂, hkept⟩ := hs.scheduleAddress hid haddress hreplace
      obtain ⟨hs₃, hsame⟩ := hs₂.forM (fun i hi => hkept i (hgone _ (by simp) i hi))
        (fun i v t hi => hs₂.scheduleDeleteOnce hi) helement
      refine (hs₃.forM (fun i hi => ?_) (fun i v t hi => hs₃.scheduleDeleteOnce hi) hcast).1
      rw [hsame]
      exact hkept i (hgone _ (by simp) i hi)

theorem staticAddress_eq {bits : Nat}
    (h : staticAddress bits start ty s = .ok address s') : address = ⟨s.program.instrs.size⟩ ∧
      s' = { s with program := (s.program.createInstr (.cast .inttoptr) ty [.ofInt bits start]).1 } := by
  cases h
  exact ⟨rfl, rfl⟩

theorem make_ok {α : Type} {f : Program → Program × α} {a : α}
    (h : edit (Edit.make f) s = .ok a s') :
    a = (f s.program).2 ∧ s' = { s with program := (f s.program).1 } := by
  cases h
  exact ⟨rfl, rfl⟩

theorem Working.measure (hs : Working names s) (hid : (s.program.instr id).kind.Replaceable)
    (hmz : "__quantum__qis__mz__body" ∉ names)
    (hqubit : ∀ v, c.lookup "qubit" = some v → v ∈ (s.program.instr id).operands)
    (h : measure width id c s = .ok true s') : Working names s' := by
  unfold Replacing.measure at h
  obtain ⟨_, _, hprogram, h⟩ := bind_ok h
  cases hprogram
  cases hlookup : c.lookup "qubit" with
  | none =>
    rw [hlookup] at h
    cases h
  | some qubit =>
    rw [hlookup] at h
    dsimp only at h
    split at h
    · cases h
    obtain ⟨start, s₁, hallocate, h⟩ := bind_ok h
    obtain ⟨-, hs₁⟩ := onResults_ok hallocate
    generalize s₁.extra.results = results at hs₁
    subst hs₁
    obtain ⟨address, s₂, haddress, h⟩ := bind_ok h
    obtain ⟨rfl, rfl⟩ := staticAddress_eq haddress
    obtain ⟨_, _, hprogram, h⟩ := bind_ok h
    obtain ⟨rfl, rfl⟩ := program_ok hprogram
    obtain ⟨f, s₃, hensure, h⟩ := bind_ok h
    obtain ⟨rfl, rfl⟩ := make_ok hensure
    obtain ⟨_, _, hprogram, h⟩ := bind_ok h
    obtain ⟨rfl, rfl⟩ := program_ok hprogram
    obtain ⟨call, s₄, hinsert, h⟩ := bind_ok h
    obtain ⟨q, hcall, rfl⟩ := edit_ok.mp hinsert
    obtain ⟨_, s₅, hreplace, h⟩ := bind_ok h
    obtain rfl := modify_ok hreplace
    obtain ⟨-, rfl⟩ := pure_ok h
    -- the instruction is promised its address first, so that the new call may refer to it
    have hpromise := hs.promise hid (s.program.instr id).ty width start
    have hold : (s.program.createInstr (.cast .inttoptr) (s.program.instr id).ty
        [.ofInt width start]).1.instr id = s.program.instr id :=
      instr_createInstr_ne _ _ _ (ne_fresh (lt_of_replaceable hid))
    refine (hpromise.callBeside hmz (.inr rfl) (by rw [hold]; exact hid) (fun v hv => ?_) hcall).1
    rcases List.mem_pair.mp hv with rfl | rfl
    · rw [hold]
      exact .inl (hqubit v hlookup)
    · exact .inr ⟨_, rfl, List.mem_append_right _ List.mem_cons_self⟩

theorem Working.answer {answer : InstrId} (hs : Working names s)
    (hid : (s.program.instr id).kind.Replaceable)
    (hanswer : s.program.functionOf? answer = s.program.functionOf? id)
    (hone : ∀ i, c.instr? "one" = some i → (s.program.instr i).kind.Replaceable)
    (h : (do
      change fun p => (p.takeName id answer).replaceUses (.instr id) (.instr answer)
      Replacing.scheduleDelete id
      (c.instr? "one").forM fun canonical => do
        if ← allUsersScheduled canonical then Replacing.scheduleDeleteOnce canonical
      return true : Replacing Addresses Bool) s = .ok true s') : Working names s' := by
  obtain ⟨_, s₁, hchange, h⟩ := bind_ok h
  obtain rfl := modify_ok hchange
  obtain ⟨_, s₂, hdelete, h⟩ := bind_ok h
  obtain ⟨_, s₃, hcanonical, h⟩ := bind_ok h
  obtain ⟨-, rfl⟩ := pure_ok h
  have hkind : ∀ i, (s.program.instr i).kind.Replaceable →
      (((s.program.takeName id answer).replaceUses (.instr id) (.instr answer)).instr
        i).kind.Replaceable := by
    intro i hi
    rw [kind_replaceUses, kind_takeName]
    exact hi
  have hnamed := AtWork.takeName hs id answer
  have hplaces := (sameFrame_takeName s.program id answer).places fun _ => rfl
  have hchanged : Working names { s with
      program := (s.program.takeName id answer).replaceUses (.instr id) (.instr answer) } := by
    refine hnamed.replaceUses rfl rfl ?_
    rintro f - (hin | hguest)
    · refine Or.inl ?_
      rw [hplaces.functionOf, hanswer, ← hplaces.functionOf]
      exact hin
    · exact absurd hguest (hnamed.not_guest (by rw [kind_takeName]; exact hid) f)
  obtain ⟨hs₂, hsame⟩ := hchanged.scheduleDelete (hkind id hid) hdelete
  refine (hs₂.forM (fun i hi => ?_) (fun i v t hi h => ?_) hcanonical).1
  · rw [hsame]
    exact hkind i (hone i hi)
  · obtain ⟨scheduled, s₄, hask, h⟩ := bind_ok h
    cases hask
    split at h
    · exact hs₂.scheduleDeleteOnce hi h
    · obtain ⟨-, rfl⟩ := pure_ok h
      exact ⟨hs₂, rfl⟩

theorem Working.readResult {negated : Bool} (hs : Working names s)
    (hid : (s.program.instr id).kind.Replaceable)
    (hread : "__quantum__qis__read_result__body" ∉ names)
    (hresult : ∀ v, c.lookup "result" = some v → v ∈ (s.program.instr id).operands)
    (hone : ∀ i, c.instr? "one" = some i → (s.program.instr i).kind.Replaceable)
    (h : readResult negated id c s = .ok true s') : Working names s' := by
  unfold Replacing.readResult at h
  cases hlookup : c.lookup "result" with
  | none =>
    rw [hlookup] at h
    cases h
  | some result =>
    rw [hlookup] at h
    obtain ⟨_, _, hprogram, h⟩ := bind_ok h
    obtain ⟨rfl, rfl⟩ := program_ok hprogram
    obtain ⟨f, s₁, hensure, h⟩ := bind_ok h
    obtain ⟨rfl, rfl⟩ := make_ok hensure
    obtain ⟨_, _, hprogram, h⟩ := bind_ok h
    obtain ⟨rfl, rfl⟩ := program_ok hprogram
    obtain ⟨read, s₂, hinsert, h⟩ := bind_ok h
    obtain ⟨q, hcall, rfl⟩ := edit_ok.mp hinsert
    obtain ⟨hq, hbeside⟩ := AtWork.callBeside hs hread (.inl rfl) hid (fun v hv => .inl
      (List.mem_singleton.mp hv ▸ hresult result hlookup)) hcall
    have hlt := lt_of_replaceable hid
    have hkept : ∀ i, (s.program.instr i).kind.Replaceable → (q.instr i).kind.Replaceable :=
      fun i hi => by
        rw [hbeside.instr i (lt_of_replaceable hi)]
        exact hi
    have hanswer : q.functionOf? read = q.functionOf? id := by
      rw [hbeside.new, hbeside.functionOf id hlt]
    split at h
    · obtain ⟨_, _, hprogram, h⟩ := bind_ok h
      obtain ⟨rfl, rfl⟩ := program_ok hprogram
      obtain ⟨answer, s₃, hinsert, h⟩ := bind_ok h
      obtain ⟨r, hnot, rfl⟩ := edit_ok.mp hinsert
      have hdraft : (q.draftNot (.instr read) none).kind.Replaceable := ⟨rfl, nofun, nofun⟩
      have hoperands : ∀ g, (q.func g).erased = false → q.functionOf? id = some g →
          ∀ v ∈ (q.draftNot (.instr read) none).operands,
            Refers (guests q s.scheduled) q g v := by
        intro g _ hin v hv
        rcases List.mem_pair.mp hv with rfl | rfl
        · exact Or.inl (hanswer.trans hin)
        · trivial
      obtain ⟨hr, hbeside'⟩ := hq.insert (.inl rfl) (hkept id hid) hdraft hoperands hnot
      have hkept' : ∀ i, (s.program.instr i).kind.Replaceable → (r.instr i).kind.Replaceable :=
        fun i hi => by
          rw [hbeside'.instr i (lt_of_replaceable (hkept i hi))]
          exact hkept i hi
      have hanswer' : r.functionOf? answer = r.functionOf? id := by
        rw [hbeside'.new, hbeside'.functionOf id (lt_of_replaceable (hkept id hid))]
      exact Working.answer (s := ⟨r, s.scheduled, s.extra⟩) hr (hkept' id hid) hanswer'
        (fun i hi => hkept' i (hone i hi)) h
    · exact Working.answer (s := ⟨q, s.scheduled, s.extra⟩) hq (hkept id hid) hanswer
        (fun i hi => hkept i (hone i hi)) h

/-! ## 3. Trying rules -/

theorem Working.replaced {f : Replacer Addresses} (hs : Working names s)
    (hmz : "__quantum__qis__mz__body" ∉ names) (hread : "__quantum__qis__read_result__body" ∉ names)
    (hquiet : s.program.QuietAt settings.removed id) (hfound : Found settings s.program id c f)
    (h : f id c s = .ok true s') : Working names s' := by
  have hgoes : ∀ {i}, s.program.Removable i → (s.program.instr i).kind.Replaceable :=
    fun {i} hi => hi.replaceable (hs.directed i)
  cases hfound with
  | removed hname hcalls =>
    obtain ⟨k, hcalled, rfl⟩ := hcalls
    exact hs.deleteInstr
      (replaceable_of_calledFunction? hcalled fun hinvoke => hquiet hinvoke k hcalled hname) h
  | @compared result fetch negated hcompares hresult hone =>
    refine hs.readResult (hgoes hcompares.removable) hread (fun v hv => ?_) (fun i hi => ?_) h
    · obtain rfl := Option.some.inj (hresult.symm.trans hv)
      rcases hcompares.sides with ⟨-, -, callee, hoperands⟩ | ⟨-, -, callee, hoperands⟩ <;>
        simp [hoperands]
    · obtain rfl := Option.some.inj (hone.symm.trans hi)
      exact hgoes (hcompares.canonical.removable (.inl (Nat.zero_le 1)))
  | array hcall => exact hs.allocateArray (hgoes (hcall.removable (.inl (Nat.le_refl 1)))) h
  | element hreads _ _ _ hparts =>
    obtain ⟨align, hload⟩ := hreads.load
    exact hs.accessElement (by rw [hload]; exact ⟨rfl, nofun, nofun⟩)
      (fun name hname i hi => hgoes (hparts name hname i hi).2) h
  | releasedArray hcall => exact hs.releaseArray (hgoes (hcall.removable (.inl (Nat.le_refl 1)))) h
  | qubit hcall => exact hs.allocateQubit (hgoes (hcall.removable (.inl (Nat.zero_le 1)))) h
  | released hcall => exact hs.releaseQubit (hgoes (hcall.removable (.inl (Nat.le_refl 1)))) h
  | dropped hcall => exact hs.deleteInstr (hgoes (hcall.removable (.inl (Nat.le_refl 1)))) h
  | measured hcall hqubit =>
    refine hs.measure (hgoes (hcall.removable (.inl (Nat.le_refl 1)))) hmz (fun v hv => ?_) h
    obtain rfl := Option.some.inj (hqubit.symm.trans hv)
    obtain ⟨callee, hoperands⟩ := hcall.operands
    simp [hoperands]

/-- The step: a rule set schedules only what can go. -/
theorem Working.applyFirst {accepted : Bool} (hs : Working names s)
    (hnames : names = [] ∨ names = settings.removed)
    (hquiet : (s.program.instr id).erased = false → s.program.QuietAt settings.removed id)
    (h : applyFirst settings.rules id s = .ok accepted s') : Working names s' := by
  have hkept : ∀ {name}, name ∉ referenceCounting ++ aliasCounting ++ stringSupport →
      name ∉ names := by
    intro name hname
    rcases hnames with rfl | rfl
    · exact List.not_mem_nil
    · exact not_mem_removed hname
  unfold Replacing.applyFirst at h
  obtain ⟨_, _, hprogram, h⟩ := bind_ok h
  obtain ⟨rfl, rfl⟩ := program_ok hprogram
  split at h
  · cases h
    exact hs
  rename_i hlive
  rcases firstAccepting_decided (installed_rules settings).free s id with
    ⟨-, hrun⟩ | ⟨⟨hrules, -, hmatch, hreplacer, hresult⟩, hsettled⟩
  · cases hrun.symm.trans h
    exact hs
  · rw [h] at hresult hsettled
    cases accepted with
    | false => exact absurd rfl (hsettled s')
    | true =>
      exact hs.replaced (hkept (by decide)) (hkept (by decide)) (hquiet (Bool.eq_false_iff.mpr hlive))
        (finds_rules _ (by rw [hrules]; simp) _ _ hmatch hreplacer) hresult

end Replacing

end QirProfile
