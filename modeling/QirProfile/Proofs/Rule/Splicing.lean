import QirProfile.Proofs.Rule.Growth

/-!
# What a schedule does to a program

A schedule is carried out entry by entry: an instruction gives way to a new one in its place, or just
goes. `Spliced rs p q` says what all entries together do, and no entry of a schedule that is `Ready`
is refused.
-/

namespace QirProfile

/-! ## 1. Schedules -/

/-- What stands in the place of an instruction when a schedule has been carried out. -/
def splice (rs : List Replacement) (i : InstrId) : List InstrId :=
  (rs.find? (·.old == i)).elim [i] (·.new.toList)

theorem splice_cons_self (r : Replacement) (rs : List Replacement) :
    splice (r :: rs) r.old = r.new.toList := by
  simp [splice]

theorem splice_cons_of_ne {r : Replacement} {i : InstrId} (h : i ≠ r.old)
    (rs : List Replacement) : splice (r :: rs) i = splice rs i := by
  simp [splice, beq_eq_false_iff_ne.mpr h.symm]

theorem splice_of_not_mem {rs : List Replacement} {i : InstrId} (h : i ∉ rs.map (·.old)) :
    splice rs i = [i] := by
  have hnone : rs.find? (·.old == i) = none :=
    List.find?_eq_none.mpr fun r hr => by
      simpa using fun heq => h (List.mem_map.mpr ⟨r, hr, heq⟩)
  rw [splice, hnone, Option.elim_none]

theorem splice_of_mem {rs : List Replacement} {r : Replacement} (hnodup : (rs.map (·.old)).Nodup)
    (hr : r ∈ rs) : splice rs r.old = r.new.toList := by
  induction rs with
  | nil => cases hr
  | cons x rs ih =>
    obtain ⟨hx, hnodup⟩ := List.nodup_cons.mp hnodup
    rcases List.mem_cons.mp hr with rfl | hr
    · exact splice_cons_self r rs
    · have hne : r.old ≠ x.old := fun heq => hx (List.mem_map.mpr ⟨r, hr, heq⟩)
      rw [splice_cons_of_ne hne, ih hnodup hr]

/-- An operand stays what it was if nothing stands inside it and it is none of those that go. -/
def Value.Kept (gone : List InstrId) (v w : Value) : Prop :=
  v.hasParts = false → (∀ o ∈ gone, v ≠ .instr o) → w = v

theorem Value.Kept.trans {old : InstrId} {gone : List InstrId} {u v w : Value}
    (h : Kept [old] u v) (h' : Kept gone v w) : Kept (old :: gone) u w := by
  intro hparts hne
  obtain rfl := h hparts fun o ho => hne o (List.mem_singleton.mp ho ▸ List.mem_cons_self)
  exact h' hparts fun o ho => hne o (List.mem_cons_of_mem old ho)

theorem Value.forall₂_kept_trans {old : InstrId} {gone : List InstrId} {us vs ws : List Value}
    (h : List.Forall₂ (Kept [old]) us vs) (h' : List.Forall₂ (Kept gone) vs ws) :
    List.Forall₂ (Kept (old :: gone)) us ws := by
  induction h generalizing ws with
  | nil =>
    cases h'
    exact .nil
  | cons hv _ ih =>
    cases h' with
    | cons hw hrest => exact .cons (hv.trans hw) (ih hrest)

theorem Value.kept_substitute (old : InstrId) (new v : Value) :
    Kept [old] v (substitute (.instr old) new v) := by
  intro hparts hne
  have hold := hne old List.mem_cons_self
  cases v <;> cases hparts <;> exact if_neg hold

namespace Program

/-- Nothing about a schedule can be refused: it names no instruction twice, what it names is there, and
    what is to take a place stands in no block yet. -/
structure Ready (rs : List Replacement) (p : Program) : Prop where
  sound : p.Sound
  olds : (rs.map (·.old)).Nodup
  news : (rs.filterMap (·.new)).Nodup
  live : ∀ r ∈ rs, (p.instr r.old).erased = false
  stand : ∀ r ∈ rs, r.new.isSome = true → (p.instr r.old).parent.isSome = true
  guests : ∀ r ∈ rs, ∀ a, r.new = some a →
    a ∉ rs.map (·.old) ∧ (p.instr a).erased = false ∧ (p.instr a).parent = none

theorem Ready.congr {p q : Program} {rs : List Replacement} (h : Ready rs p) (hq : q.Sound)
    (hinstr : ∀ i, q.instr i = p.instr i) : Ready rs q where
  sound := hq
  olds := h.olds
  news := h.news
  live r hr := by
    rw [hinstr]
    exact h.live r hr
  stand r hr hnew := by
    rw [hinstr]
    exact h.stand r hr hnew
  guests r hr a ha := by
    rw [hinstr]
    exact h.guests r hr a ha

/-- What a schedule makes of a program. -/
structure Spliced (rs : List Replacement) (p q : Program) : Prop where
  sound : q.Sound
  func : ∀ f, q.func f = p.func f
  listed : ∀ b, (q.block b).instrs = (p.block b).instrs.flatMap (splice rs)
  parent : ∀ i, i ∉ rs.map (·.old) → i ∉ rs.filterMap (·.new) →
    (q.instr i).parent = (p.instr i).parent
  gone : ∀ i ∈ rs.map (·.old), (q.instr i).erased = true
  live : ∀ i, i ∉ rs.map (·.old) → (q.instr i).erased = (p.instr i).erased
  instr : ∀ i, (q.instr i).kind = (p.instr i).kind ∧ (q.instr i).ty = (p.instr i).ty ∧
    Instr.SameReading (p.instr i) (q.instr i)
  operands : ∀ i, List.Forall₂ (Value.Kept (rs.map (·.old))) (p.instr i).operands
    (q.instr i).operands

variable {p q s : Program} {r : Replacement} {rs : List Replacement} {old new : InstrId} {v : Value}

theorem Spliced.nil (hp : p.Sound) : Spliced [] p p where
  sound := hp
  func _ := rfl
  listed _ := (List.flatMap_singleton' _).symm
  parent _ _ _ := rfl
  gone := nofun
  live _ _ := rfl
  instr _ := ⟨rfl, rfl, .refl _⟩
  operands _ := List.forall₂_same.mpr fun _ _ _ _ => rfl

/-! ## 2. One entry -/

theorem flatMap_splice_none (old : InstrId) (ids : List InstrId) :
    ids.flatMap (splice [⟨old, none⟩]) = ids.filter (· != old) := by
  induction ids with
  | nil => rfl
  | cons i ids ih =>
    by_cases hi : i = old
    · rw [List.flatMap_cons, hi, splice_cons_self ⟨old, none⟩, List.filter_cons_of_neg (by simp), ih]
      rfl
    · rw [List.flatMap_cons, splice_of_not_mem (by simpa using hi),
        List.filter_cons_of_pos (by simpa using hi), ih]
      rfl

theorem spliced_drop {r : Program} (hp : p.Sound) (hs : p.SameFrame r)
    (hlive : (p.instr old).erased = false) (hfunc : ∀ f, r.func f = p.func f)
    (hinstr : ∀ i, (r.instr i).kind = (p.instr i).kind ∧ (r.instr i).ty = (p.instr i).ty ∧
      Instr.SameReading (p.instr i) (r.instr i))
    (hoperands : ∀ i, List.Forall₂ (Value.Kept [old]) (p.instr i).operands (r.instr i).operands) :
    Spliced [⟨old, none⟩] p (r.dropInstr old) := by
  have hlive' : (r.instr old).erased = false := (hs.instr old).2.trans hlive
  have hself := instr_dropInstr_self (instr_lt_of_live hlive')
  have hother : ∀ i, i ∉ [old] → (r.dropInstr old).instr i = r.instr i := fun i hi =>
    instr_dropInstr_ne fun h => hi (List.mem_singleton.mpr h.symm)
  have hrest := same_dropInstr r old
  refine ⟨(evolves_dropInstr hlive' (hs.evolves hp).1).1, fun f => ?_, fun b => ?_,
    fun i hi _ => ?_, fun i hi => ?_, fun i hi => ?_, fun i => ?_, fun i => ?_⟩
  · rw [func_dropInstr, hfunc]
  · rw [flatMap_splice_none, block_dropInstr, (hs.instr old).1]
    split
    · rw [(hs.block b).2.1]
    · rename_i hparent
      rw [(hs.block b).2.1, List.filter_eq_self.mpr]
      exact fun i hi => bne_iff_ne.mpr fun heq => hparent (heq ▸ hp.mem_instrs.mp hi)
  · rw [hother i hi]
    exact (hs.instr i).1
  · obtain rfl := List.mem_singleton.mp hi
    rw [hself]
  · rw [hother i hi]
    exact (hs.instr i).2
  · obtain ⟨hkind, hty, hops⟩ := hrest i
    obtain ⟨hkind', hty', hreading⟩ := hinstr i
    exact ⟨hkind.trans hkind', hty.trans hty', hreading.trans (.of_eq hkind hops)⟩
  · rw [(hrest i).2.2]
    exact hoperands i

theorem replaceUses_kept (p : Program) (old : InstrId) (hv : v.toBlock? = none ∧ v.toFunc? = none)
    (i : InstrId) :
    (((p.replaceUses (.instr old) v).instr i).kind = (p.instr i).kind ∧
      ((p.replaceUses (.instr old) v).instr i).ty = (p.instr i).ty ∧
      Instr.SameReading (p.instr i) ((p.replaceUses (.instr old) v).instr i)) ∧
    List.Forall₂ (Value.Kept [old]) (p.instr i).operands
      ((p.replaceUses (.instr old) v).instr i).operands := by
  rw [instr_replaceUses]
  split
  · refine ⟨⟨rfl, rfl, .substitute rfl rfl (.inr hv)⟩, ?_⟩
    rw [List.forall₂_map_right_iff]
    exact List.forall₂_same.mpr fun w _ => Value.kept_substitute old v w
  · exact ⟨⟨rfl, rfl, .refl _⟩, List.forall₂_same.mpr fun _ _ _ _ => rfl⟩

theorem spliced_deleteInstr (hp : p.Sound) (hlive : (p.instr old).erased = false) :
    ∃ q, p.deleteInstr old = .ok q ∧ Spliced [⟨old, none⟩] p q := by
  have hspliced : Spliced [⟨old, none⟩] p ((if p.hasUses (.instr old) then
      p.replaceUses (.instr old) (.undef (p.instr old).ty) else p).dropInstr old) := by
    have huses := replaceUses_kept p old (v := .undef (p.instr old).ty) ⟨rfl, rfl⟩
    split
    · exact spliced_drop hp (sameFrame_replaceUses ..) hlive (fun _ => rfl) (fun i => (huses i).1)
        fun i => (huses i).2
    · exact spliced_drop hp (.refl p) hlive (fun _ => rfl) (fun _ => ⟨rfl, rfl, .refl _⟩)
        fun i => List.forall₂_same.mpr fun _ _ _ _ => rfl
  refine ⟨_, eraseInstr_ok.mpr ⟨?_, rfl⟩, hspliced⟩
  split
  · exact ((sameFrame_replaceUses p _ _).instr old).2.trans hlive
  · exact hlive

theorem splice_absent (new : InstrId) {ids : List InstrId} (hids : old ∉ ids) :
    ids.filter (· != old) = ids ∧ ids.flatMap (splice [⟨old, some new⟩]) = ids := by
  refine ⟨List.filter_eq_self.mpr fun i hi => bne_iff_ne.mpr fun h => hids (h ▸ hi), ?_⟩
  refine (List.flatMap_congr fun i hi => ?_).trans (List.flatMap_singleton' _)
  exact splice_of_not_mem fun h => hids ((List.mem_singleton.mp h : i = old) ▸ hi)

theorem spliced_replaceInstr (hp : p.Sound) (hlive : (p.instr old).erased = false)
    (hstand : (p.instr old).parent.isSome = true) (hne : new ≠ old)
    (hnew : (p.instr new).erased = false) (hguest : (p.instr new).parent = none) :
    ∃ q, p.replaceInstr old new = .ok q ∧ Spliced [⟨old, some new⟩] p q := by
  obtain ⟨b, hb⟩ := Option.isSome_iff_exists.mp hstand
  have hmem := hp.mem_instrs.mpr hb
  obtain ⟨n, hn⟩ := Option.isSome_iff_exists.mp (List.isSome_idxOf?.mpr hmem)
  have hinsert : p.insertBefore old new = .ok (p.attach b new (·.insertIdx (n + 0) new)) :=
    insertBeside_ok.mpr ⟨⟨hnew, hguest⟩, b, n, positionOf_ok.mpr ⟨hlive, hb, hn⟩, rfl⟩
  obtain ⟨front, back, hl, hins, -⟩ := insertIdx_idxOf? hn new
  have hlisted : ((p.attach b new (·.insertIdx (n + 0) new)).block b).instrs =
      front ++ new :: old :: back := by
    rw [attach, block_updateInstr, block_updateBlock_self (block_lt_of_mem hmem)]
    exact hins
  obtain ⟨c, _, _, hplaced⟩ := insertBeside_placed hp (Nat.zero_le 1) hinsert
  obtain rfl : b = c := Option.some.inj (hb.symm.trans hplaced.anchored)
  generalize p.attach b new (·.insertIdx (n + 0) new) = r at hinsert hlisted hplaced
  have hold : r.instr old = p.instr old := hplaced.instr old hne.symm
  have hhanded := (sameFrame_takeName r old new).trans
    (sameFrame_replaceUses _ (.instr old) (.instr new))
  have hdrop : Spliced [⟨old, none⟩] r
      (((r.takeName old new).replaceUses (.instr old) (.instr new)).dropInstr old) := by
    have huses := replaceUses_kept (r.takeName old new) old (v := .instr new) ⟨rfl, rfl⟩
    refine spliced_drop hplaced.sound hhanded (hold ▸ hlive) (fun _ => rfl) (fun i => ?_) fun i => ?_
    all_goals obtain ⟨m, hm⟩ := instr_takeName r old new i
    · obtain ⟨hkind, hty, hreading⟩ := (huses i).1
      rw [hm] at hkind hty hreading
      refine ⟨hkind, hty, Instr.SameReading.trans ?_ hreading⟩
      exact .of_eq rfl rfl
    · have hkept := (huses i).2
      rw [hm] at hkept
      exact hkept
  refine ⟨_, replaceInstr_ok.mpr ⟨r, hinsert, eraseInstr_ok.mpr ⟨?_, rfl⟩⟩, ?_⟩
  · rw [(hhanded.instr old).2, hold]
    exact hlive
  have hinstr : ∀ i, (r.instr i).kind = (p.instr i).kind ∧ (r.instr i).ty = (p.instr i).ty ∧
      (r.instr i).operands = (p.instr i).operands ∧ (r.instr i).erased = (p.instr i).erased := by
    intro i
    by_cases hi : i = new
    · rw [hi, hplaced.made]
      exact ⟨rfl, rfl, rfl, rfl⟩
    · rw [hplaced.instr i hi]
      exact ⟨rfl, rfl, rfl, rfl⟩
  refine ⟨hdrop.sound, fun f => (hdrop.func f).trans (hplaced.func f), fun c => ?_,
    fun i hi hother => ?_, hdrop.gone, fun i hi => (hdrop.live i hi).trans (hinstr i).2.2.2,
    fun i => ?_, fun i => (hinstr i).2.2.1 ▸ hdrop.operands i⟩
  · rw [hdrop.listed c, flatMap_splice_none]
    by_cases hc : c = b
    · subst hc
      have hnodup := hp.nodup_instrs c
      rw [hl] at hnodup
      have hout := (List.nodup_cons.mp (List.nodup_middle.mp hnodup)).1
      obtain ⟨hfront, hfront'⟩ := splice_absent new fun h => hout (List.mem_append_left back h)
      obtain ⟨hback, hback'⟩ := splice_absent new fun h => hout (List.mem_append_right front h)
      rw [hlisted, hl, List.filter_append, List.flatMap_append, List.flatMap_cons, hfront, hfront',
        hback', splice_cons_self ⟨old, some new⟩, List.filter_cons_of_pos (by simpa using hne),
        List.filter_cons_of_neg (by simp), hback]
      rfl
    · have hout : old ∉ (p.block c).instrs := fun h =>
        hc (Option.some.inj ((hp.mem_instrs.mp h).symm.trans hb))
      rw [hplaced.others c hc, (splice_absent new hout).1, (splice_absent new hout).2]
  · rw [hdrop.parent i hi List.not_mem_nil,
      hplaced.instr i fun h => hother (List.mem_singleton.mpr h)]
  · obtain ⟨hkind, hty, hreading⟩ := hdrop.instr i
    obtain ⟨hkind', hty', hops, -⟩ := hinstr i
    exact ⟨hkind.trans hkind', hty.trans hty', (Instr.SameReading.of_eq hkind' hops).trans hreading⟩

theorem spliced_replaceOne (h : Ready (r :: rs) p) :
    ∃ q, p.replaceOne r = .ok q ∧ Spliced [r] p q := by
  obtain ⟨old, new⟩ := r
  have hlive := h.live _ List.mem_cons_self
  cases new with
  | none => exact spliced_deleteInstr h.sound hlive
  | some new =>
    obtain ⟨hout, hnew, hguest⟩ := h.guests _ List.mem_cons_self new rfl
    refine spliced_replaceInstr h.sound hlive (h.stand _ List.mem_cons_self rfl) ?_ hnew hguest
    exact fun heq => hout (heq ▸ List.mem_cons_self)

/-! ## 3. A whole schedule -/

theorem Ready.next (h : Ready (r :: rs) p) (hq : Spliced [r] p q) : Ready rs q := by
  obtain ⟨hr, holds⟩ := List.nodup_cons.mp h.olds
  have hother : ∀ x ∈ rs, x.old ∉ [r].map (·.old) := fun x hx hmem =>
    hr (List.mem_singleton.mp hmem ▸ List.mem_map_of_mem hx)
  have hguest : ∀ x ∈ r :: rs, x.old ∉ [r].filterMap (·.new) := by
    intro x hx hmem
    obtain ⟨y, hy, hnew⟩ := List.mem_filterMap.mp hmem
    obtain rfl := List.mem_singleton.mp hy
    exact (h.guests y List.mem_cons_self _ hnew).1 (List.mem_map_of_mem hx)
  refine ⟨hq.sound, holds, ?_, fun x hx => ?_, fun x hx hnew => ?_, fun x hx a ha => ?_⟩
  · exact h.news.sublist ((List.sublist_cons_self r rs).filterMap _)
  · rw [hq.live _ (hother x hx)]
    exact h.live x (List.mem_cons_of_mem r hx)
  · rw [hq.parent _ (hother x hx) (hguest x (List.mem_cons_of_mem r hx))]
    exact h.stand x (List.mem_cons_of_mem r hx) hnew
  · obtain ⟨hout, hlive, hnone⟩ := h.guests x (List.mem_cons_of_mem r hx) a ha
    have hne : a ∉ [r].map (·.old) := fun hmem =>
      hout (List.mem_singleton.mp hmem ▸ List.mem_cons_self)
    have hfirst : a ∉ [r].filterMap (·.new) := by
      intro hmem
      obtain ⟨y, hy, hnew⟩ := List.mem_filterMap.mp hmem
      obtain rfl := List.mem_singleton.mp hy
      have hnews := h.news
      rw [List.filterMap_cons_some hnew] at hnews
      exact (List.nodup_cons.mp hnews).1 (List.mem_filterMap.mpr ⟨x, hx, ha⟩)
    exact ⟨fun hmem => hout (List.mem_cons_of_mem _ hmem), (hq.live a hne).trans hlive,
      (hq.parent a hne hfirst).trans hnone⟩

theorem Spliced.cons (h : Ready (r :: rs) p) (hq : Spliced [r] p q) (hs : Spliced rs q s) :
    Spliced (r :: rs) p s := by
  have hr := (List.nodup_cons.mp h.olds).1
  -- the pointer that has taken the place of the first stays there
  have hkept : r.new.toList.flatMap (splice rs) = r.new.toList := by
    cases hnew : r.new with
    | none => rfl
    | some a =>
      have ha : a ∉ rs.map (·.old) := fun hmem =>
        (h.guests r List.mem_cons_self a hnew).1 (List.mem_cons_of_mem _ hmem)
      rw [Option.toList_some, List.flatMap_singleton, splice_of_not_mem ha]
  have hsplit : ∀ i, i ∉ (r :: rs).map (·.old) → i ∉ [r].map (·.old) ∧ i ∉ rs.map (·.old) := by
    intro i hi
    rw [List.map_cons, List.mem_cons, not_or] at hi
    exact ⟨mt List.mem_singleton.mp hi.1, hi.2⟩
  refine ⟨hs.sound, fun f => (hs.func f).trans (hq.func f), fun b => ?_, fun i hi hnew => ?_,
    fun i hi => ?_, fun i hi => ?_, fun i => ?_, fun i => ?_⟩
  · rw [hs.listed b, hq.listed b, List.flatMap_assoc]
    refine List.flatMap_congr fun i _ => ?_
    by_cases hi : i = r.old
    · rw [hi, splice_cons_self, splice_cons_self, hkept]
    · rw [splice_cons_of_ne hi, splice_cons_of_ne hi, splice_of_not_mem List.not_mem_nil,
        List.flatMap_singleton]
  · obtain ⟨hfirst, hrest⟩ := hsplit i hi
    have hnews : ∀ {xs}, xs ⊆ r :: rs → i ∉ xs.filterMap (·.new) := fun hxs hmem =>
      hnew (List.filterMap_subset _ hxs hmem)
    rw [hs.parent i hrest (hnews (List.subset_cons_self r rs)), hq.parent i hfirst (hnews ?_)]
    exact List.cons_subset_cons r (List.nil_subset rs)
  · rcases List.mem_cons.mp hi with rfl | hi
    · rw [hs.live r.old hr]
      exact hq.gone r.old List.mem_cons_self
    · exact hs.gone i hi
  · obtain ⟨hfirst, hrest⟩ := hsplit i hi
    exact (hs.live i hrest).trans (hq.live i hfirst)
  · obtain ⟨hkind, hty, hreading⟩ := hq.instr i
    obtain ⟨hkind', hty', hreading'⟩ := hs.instr i
    exact ⟨hkind'.trans hkind, hty'.trans hty, hreading.trans hreading'⟩
  · exact Value.forall₂_kept_trans (hq.operands i) (hs.operands i)

theorem replaceEach_spliced (h : Ready rs p) :
    ∃ n q, replaceEach rs p = .ok n q ∧ Spliced rs p q := by
  induction rs generalizing p with
  | nil => exact ⟨0, p, rfl, .nil h.sound⟩
  | cons r rs ih =>
    obtain ⟨q, hone, hq⟩ := spliced_replaceOne h
    obtain ⟨n, s, hrest, hs⟩ := ih (h.next hq)
    refine ⟨n + 1, s, ?_, .cons h hq hs⟩
    have hlive := h.live r List.mem_cons_self
    have hget : (get : Edit Program) p = .ok p p := rfl
    have hattempt : Edit.attempt (·.replaceOne r) p = .ok () q := attempt_ok.mpr hone
    unfold replaceEach
    rw [bind_of_ok hget, if_neg (by simp [hlive]), bind_of_ok hattempt, bind_of_ok hrest]
    rfl

theorem Ready.reverse (h : Ready rs p) : Ready rs.reverse p where
  sound := h.sound
  olds := (rs.reverse_perm.map (·.old)).nodup_iff.mpr h.olds
  news := (rs.reverse_perm.filterMap (·.new)).nodup_iff.mpr h.news
  live r hr := h.live r (List.mem_reverse.mp hr)
  stand r hr := h.stand r (List.mem_reverse.mp hr)
  guests r hr a ha := by
    obtain ⟨hout, hrest⟩ := h.guests r (List.mem_reverse.mp hr) a ha
    exact ⟨fun hmem => hout ((rs.reverse_perm.map (·.old)).mem_iff.mp hmem), hrest⟩

/-- A schedule that is ready is never refused. -/
theorem carryOut_spliced (h : Ready rs p) :
    ∃ n q, carryOut rs p = .ok n q ∧ Spliced rs.reverse p q := by
  obtain ⟨n, q, hrun, hq⟩ := replaceEach_spliced h.reverse
  refine ⟨n, q, ?_, hq⟩
  unfold carryOut
  rw [firstRepeated?_eq_none h.olds fun _ _ => List.not_mem_nil]
  exact compileEdit_ok.mpr hrun

end Program

end QirProfile
