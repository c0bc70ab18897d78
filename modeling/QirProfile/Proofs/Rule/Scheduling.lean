import QirProfile.Proofs.Rule.Outcomes
import QirProfile.Proofs.Rule.Splicing

/-!
# What visits schedule

Where a rule accepts, the visited instruction is scheduled to go, and up to two others that it was
reached through may go along. `Gathered` says what the schedule is like behind some visits, whatever
rules have accepted.
-/

namespace QirProfile

namespace Replacing

open Program (Traces Grown Target ElementPart Fetch Calls pointer)

variable {settings : RuleSettings} {p : Program} {T T' : Traces} {s s' : RuleState Addresses}
  {id i : InstrId} {b : BlockId} {heir answer : Option InstrId} {along : List InstrId}

/-! ## 1. One visit -/

theorem Queued.mem_scheduled (h : Queued p T id s T' s' heir along) {r : Replacement} :
    r ∈ s'.scheduled ↔ r ∈ s.scheduled ∨ r = ⟨id, heir⟩ ∨ ∃ i ∈ along, r = ⟨i, none⟩ := by
  rw [h.entries, List.mem_append, List.mem_cons, List.mem_map]
  simp only [eq_comm]

theorem Queued.nodup_olds (h : Queued p T id s T' s' heir along)
    (hid : id ∉ s.scheduled.map (·.old)) (holds : (s.scheduled.map (·.old)).Nodup) :
    (s'.scheduled.map (·.old)).Nodup := by
  have halong : (along.map fun i => (⟨i, none⟩ : Replacement)).map (·.old) = along := by
    rw [List.map_map]
    exact List.map_id' along
  rw [h.entries, List.map_append, List.map_cons, halong]
  refine holds.append (List.nodup_cons.mpr ⟨fun hself => (h.apart id hself).1 rfl, h.distinct⟩) ?_
  intro i hi hother
  rcases List.mem_cons.mp hother with rfl | hother
  · exact hid hi
  · exact (h.apart i hother).2 hi

theorem Worked.nodup_news (h : Worked settings p T id s T' s' heir answer along)
    (hearlier : ∀ a ∈ s.scheduled.filterMap (·.new), a.index < s.program.instrs.size)
    (hnews : (s.scheduled.filterMap (·.new)).Nodup) : (s'.scheduled.filterMap (·.new)).Nodup := by
  have halong : (along.map fun i => (⟨i, none⟩ : Replacement)).filterMap (·.new) = [] :=
    List.filterMap_eq_nil_iff.mpr fun r hr => by
      obtain ⟨i, -, rfl⟩ := List.mem_map.mp hr
      rfl
  rw [h.entries, List.filterMap_append, List.filterMap_cons, halong]
  cases hheir : heir with
  | none => exact (List.append_nil _).symm ▸ hnews
  | some a =>
    change (_ ++ [a]).Nodup
    rw [← List.concat_eq_append]
    exact .concat (fun hmem => Nat.not_lt.mpr (h.work.pointer hheir).1 (hearlier a hmem)) hnews

/-! ## 2. Visits in a row -/

/-- An instruction goes along with others: it is a fetch of a canonical result, or a part of an access
    to an array element whose load gives way to a pointer. -/
def GoesAlong (s : RuleState Addresses) (i : InstrId) : Prop :=
  s.program.Fetch i ∨ s.program.ElementPart i ∧ ∃ load address,
    ⟨load, some address⟩ ∈ s.scheduled ∧ ∃ align, (s.program.instr load).kind = .load align

/-- Rules have been tried on the instructions in `done` of the program `p`. Nothing is scheduled twice:
    what is scheduled was visited for its own sake, or it goes along. -/
structure Gathered (p : Program) (done : List InstrId) (T : Traces) (s : RuleState Addresses) : Prop
    extends Grown p T s.program where
  stood : ∀ i ∈ done, ∃ b, i ∈ (p.block b).instrs
  untouched : ∀ i, i ∉ done → T.turned i = i ∧ T.front i = [] ∧ T.back i = []
  olds : (s.scheduled.map (·.old)).Nodup
  live : ∀ r ∈ s.scheduled, (s.program.instr r.old).erased = false
  origin : ∀ r ∈ s.scheduled, r.old ∈ done ∧ s.program.Target r.old ∨
    r.new = none ∧ GoesAlong s r.old
  pointers : ∀ r ∈ s.scheduled, ∀ a, r.new = some a → p.instrs.size ≤ a.index ∧
    ∃ ty bits address, s.program.instr a = pointer ty bits address
  news : (s.scheduled.filterMap (·.new)).Nodup

variable {done : List InstrId}

theorem Gathered.start (hp : p.Sound) (addresses : Addresses) :
    Gathered p [] {} { program := p, extra := addresses } where
  toGrown := .start hp
  stood := nofun
  untouched _ _ := ⟨rfl, rfl, rfl⟩
  olds := .nil
  live := nofun
  origin := nofun
  pointers := nofun
  news := .nil

theorem Gathered.pass (h : Gathered p done T s) (hid : id ∈ (p.block b).instrs) :
    Gathered p (id :: done) T s where
  toGrown := h.toGrown
  stood := List.forall_mem_cons.mpr ⟨⟨b, hid⟩, h.stood⟩
  untouched i hi := h.untouched i fun hmem => hi (List.mem_cons_of_mem id hmem)
  olds := h.olds
  live := h.live
  origin r hr := (h.origin r hr).imp_left fun hvisited =>
    ⟨List.mem_cons_of_mem id hvisited.1, hvisited.2⟩
  pointers := h.pointers
  news := h.news

theorem Gathered.not_scheduled (h : Gathered p done T s) (hnew : id ∉ done)
    (htarget : s.program.Target id) : id ∉ s.scheduled.map (·.old) := by
  intro hmem
  obtain ⟨r, hr, rfl⟩ := List.mem_map.mp hmem
  rcases h.origin r hr with ⟨hdone, -⟩ | ⟨-, hfetch | ⟨hpart, -⟩⟩
  · exact hnew hdone
  · exact htarget.not_bystander hfetch.bystander
  · exact htarget.not_bystander hpart.bystander

theorem GoesAlong.work (h : GoesAlong s i) (hw : Worked settings p T id s T' s' heir answer along) :
    GoesAlong s' i := by
  rcases h with hfetch | ⟨hpart, load, address, hmem, align, hload⟩
  · exact .inl (hw.fetch (hfetch.elim Calls.lt Calls.lt) hfetch)
  · have hlt : ∀ {j k}, (s.program.instr j).kind = k → k ≠ .unreachable →
        j.index < s.program.instrs.size := by
      intro j k hk hne
      by_contra hge
      rw [Program.instr_of_le (Nat.not_lt.mp hge)] at hk
      exact hne hk.symm
    refine .inr ⟨hw.elementPart (hpart.elim (hlt · nofun) Calls.lt) hpart, load, address, ?_, align, ?_⟩
    · rw [hw.entries]
      exact List.mem_append_left _ hmem
    · exact (hw.kept load (hlt hload nofun)).1.trans hload

theorem Gathered.work (h : Gathered p done T s) (hid : id ∈ (p.block b).instrs) (hnew : id ∉ done)
    (hw : Worked settings p T id s T' s' heir answer along) : Gathered p (id :: done) T' s' := by
  have hidlt := Program.instr_lt_of_parent (h.base.mem_instrs.mp hid)
  have hlive : (s.program.instr id).erased = false :=
    (h.instr id hidlt).2.2.2.trans (h.base.instr_live hid)
  have hlt := Program.instr_lt_of_live hlive
  exact
    { toGrown := hw.toGrown
      stood := List.forall_mem_cons.mpr ⟨⟨b, hid⟩, h.stood⟩
      untouched := fun i hi => by
        obtain ⟨hne, hi⟩ := not_or.mp (mt List.mem_cons.mpr hi)
        obtain ⟨ht, hf, hk⟩ := hw.elsewhere i hne
        rw [ht, hf, hk]
        exact h.untouched i hi
      olds := hw.nodup_olds (h.not_scheduled hnew hw.work.target) h.olds
      live := fun r hr => by
        have hkept : ∀ {i}, (s.program.instr i).erased = false →
            (s'.program.instr i).erased = false :=
          fun hi => (hw.kept _ (Program.instr_lt_of_live hi)).2.1.trans hi
        rcases hw.mem_scheduled.mp hr with hr | rfl | ⟨i, hi, rfl⟩
        · exact hkept (h.live r hr)
        · exact hkept hlive
        · exact hkept (hw.served i hi).1
      origin := fun r hr => by
        rcases hw.mem_scheduled.mp hr with hr | rfl | ⟨i, hi, rfl⟩
        · refine (h.origin r hr).imp (fun hvisited => ?_) fun halong => ⟨halong.1, halong.2.work hw⟩
          exact ⟨List.mem_cons_of_mem id hvisited.1,
            hw.target (Program.instr_lt_of_live (h.live r hr)) hvisited.2⟩
        · exact .inl ⟨List.mem_cons_self, hw.target hlt hw.work.target⟩
        · obtain ⟨hilive, hserves, -⟩ := hw.served i hi
          have hilt := Program.instr_lt_of_live hilive
          refine .inr ⟨rfl, hserves.imp (hw.fetch hilt) ?_⟩
          rintro ⟨hpart, ⟨align, hload⟩, hheir⟩
          obtain ⟨a, rfl⟩ := Option.isSome_iff_exists.mp hheir
          refine ⟨hw.elementPart hilt hpart, id, a, ?_, align, (hw.kept id hlt).1.trans hload⟩
          rw [hw.entries]
          exact List.mem_append_right _ List.mem_cons_self
      pointers := fun r hr a ha => by
        rcases hw.mem_scheduled.mp hr with hr | rfl | ⟨i, hi, rfl⟩
        · obtain ⟨hge, ty, bits, address, hpointer⟩ := h.pointers r hr a ha
          exact ⟨hge, ty, bits, address, hw.toUnderway.pointer hidlt hge hpointer⟩
        · obtain ⟨hge, hpointer⟩ := hw.work.pointer ha
          exact ⟨Nat.le_trans h.instrs hge, hpointer⟩
        · cases ha
      news := by
        refine hw.nodup_news (fun a ha => ?_) h.news
        obtain ⟨r, hr, ha⟩ := List.mem_filterMap.mp ha
        obtain ⟨-, ty, bits, address, hpointer⟩ := h.pointers r hr a ha
        exact Program.instr_lt_of_live (by rw [hpointer]; rfl) }

theorem Gathered.applyFirst (h : Gathered p done T s) (settings : RuleSettings)
    (hid : id ∈ (p.block b).instrs) (hnew : id ∉ done) :
    ComesTo (applyFirst settings.rules id) s CompileError.IsRefusal fun _ s' =>
      ∃ T', Gathered p (id :: done) T' s' := by
  refine (works_applyFirst h.toGrown hid (h.untouched id hnew).1 settings).mono
    (fun _ he => he.isRefusal) ?_
  rintro _ s' (⟨-, rfl⟩ | ⟨-, T', heir, answer, along, hw⟩)
  · exact ⟨T, h.pass hid⟩
  · exact ⟨T', h.work hid hnew hw⟩

theorem Gathered.not_old (h : Gathered p done T s) {ty : Ty} {bits : Nat} {address : Int}
    (hi : s.program.instr i = pointer ty bits address) : i ∉ s.scheduled.map (·.old) := by
  have hkind : (s.program.instr i).kind = .cast .inttoptr := by rw [hi, pointer]
  have hcalls : ∀ name, ¬ s.program.Calls i name := fun _ hname => hname.not_cast hkind
  intro hmem
  obtain ⟨r, hr, rfl⟩ := List.mem_map.mp hmem
  rcases h.origin r hr with ⟨-, ⟨align, hload⟩ | ⟨name, -, hname⟩⟩ | ⟨-, hfetch | ⟨hcast | hname, -⟩⟩
  · exact nomatch hkind.symm.trans hload
  · exact hcalls name hname
  · exact hfetch.elim (hcalls _) (hcalls _)
  · exact nomatch hkind.symm.trans hcast
  · exact hcalls _ hname

/-- What visits have scheduled can be carried out. -/
theorem Gathered.ready (h : Gathered p done T s) : Program.Ready s.scheduled s.program where
  sound := h.sound
  olds := h.olds
  news := h.news
  live := h.live
  stand r hr hnew := by
    rcases h.origin r hr with ⟨hdone, -⟩ | ⟨hnone, -⟩
    · obtain ⟨b, hb⟩ := h.stood r.old hdone
      have hparent := h.base.mem_instrs.mp hb
      rw [(h.instr r.old (Program.instr_lt_of_parent hparent)).2.2.1, hparent]
      rfl
    · rw [hnone] at hnew
      cases hnew
  guests r hr a ha := by
    obtain ⟨-, ty, bits, address, hpointer⟩ := h.pointers r hr a ha
    refine ⟨h.not_old hpointer, ?_⟩
    rw [hpointer]
    exact ⟨rfl, rfl⟩

end Replacing

end QirProfile
