import QirProfile.Proofs.Rule.Splicing

/-!
# What a schedule leaves behind

A schedule can name anything: instructions that are gone already, and new instructions that others are
to take the place of. An entry for an instruction that is gone is passed over, and all others are
carried out one after the other, the last one first. `Carried rs p q` says what has become of the
program then.
-/

namespace QirProfile

/-! ## 1. Schedules -/

/-- What stands in the place of an instruction when some entries have been carried out in this order.
    What has taken a place can give way itself later on. -/
def stands : List Replacement → InstrId → Option InstrId
  | [], i => some i
  | r :: rs, i => if i = r.old then r.new.bind (stands rs) else stands rs i

theorem stands_cons (r : Replacement) (rs : List Replacement) (i : InstrId) :
    stands (r :: rs) i = (stands [r] i).bind (stands rs) := by
  simp only [stands]
  split
  · rw [Option.bind_assoc]
    rfl
  · rfl

theorem stands_of_not_mem {rs : List Replacement} {i : InstrId} (h : i ∉ rs.map (·.old)) :
    stands rs i = some i := by
  induction rs with
  | nil => rfl
  | cons r rs ih =>
    obtain ⟨hne, hrest⟩ := not_or.mp (mt List.mem_cons.mpr h)
    rw [stands, if_neg hne, ih hrest]

theorem stands_of_mem {rs : List Replacement} {r : Replacement} (hnodup : (rs.map (·.old)).Nodup)
    (hr : r ∈ rs) (hnew : ∀ a, r.new = some a → a ∉ rs.map (·.old)) : stands rs r.old = r.new := by
  induction rs with
  | nil => cases hr
  | cons x rs ih =>
    obtain ⟨hx, hnodup⟩ := List.nodup_cons.mp hnodup
    have hrest : ∀ a, r.new = some a → a ∉ rs.map (·.old) := fun a ha hmem =>
      hnew a ha (List.mem_cons_of_mem _ hmem)
    rcases List.mem_cons.mp hr with rfl | hr
    · rw [stands, if_pos rfl]
      cases ha : r.new with
      | none => rfl
      | some a => exact stands_of_not_mem (hrest a ha)
    · have hne : r.old ≠ x.old := fun heq => hx (List.mem_map.mpr ⟨r, hr, heq⟩)
      rw [stands, if_neg hne, ih hnodup hr hrest]

theorem splice_eq_stands (r : Replacement) (i : InstrId) : splice [r] i = (stands [r] i).toList := by
  by_cases hi : i = r.old
  · rw [hi, splice_cons_self, stands, if_pos rfl]
    cases r.new <;> rfl
  · rw [stands_of_not_mem (by simpa using hi), splice_of_not_mem (by simpa using hi)]
    rfl

namespace Program

open Value (mentions substitute)

variable {p q s : Program} {r : Replacement} {rs : List Replacement} {old new i o : InstrId}
  {v : Value} {n : Nat}

/-- What takes over the uses of an instruction when its entry is carried out. -/
def heir (p : Program) (r : Replacement) : Value :=
  match r.new with
  | some a => .instr a
  | none => .undef (p.instr r.old).ty

/-- What has become of an operand when some entries have been carried out in this order. -/
def handOver (p : Program) (rs : List Replacement) (v : Value) : Value :=
  rs.foldl (fun v r => substitute (.instr r.old) (p.heir r) v) v

/-- The entries that are carried out: their instruction is still there. -/
def pending (p : Program) (rs : List Replacement) : List Replacement :=
  rs.filter fun r => !(p.instr r.old).erased

/-- Nothing that is there refers to an instruction, not even outside the blocks. -/
structure Unmentioned (p : Program) (o : InstrId) : Prop where
  instr : ∀ i, (p.instr i).erased = false → (p.instr i).uses (.instr o) = false
  global : ∀ g, (p.global g).uses (.instr o) = false

theorem mentions_heir (p : Program) (r : Replacement) (o : InstrId) :
    mentions (.instr o) (p.heir r) = true ↔ r.new = some o := by
  unfold heir
  cases r.new <;> simp [mentions]

theorem Unmentioned.hasUses (h : p.Unmentioned o) : p.hasUses (.instr o) = false := by
  refine Bool.eq_false_iff.mpr fun huses => ?_
  rcases hasUses_iff.mp huses with ⟨i, hlive, -, hi⟩ | ⟨g, hg⟩
  · rw [h.instr i hlive] at hi
    cases hi
  · rw [h.global g] at hg
    cases hg

/-! ## 2. One entry -/

/-- The uses of an instruction have been handed over, and it is gone. -/
structure HandsOver (old : InstrId) (v : Value) (p q : Program) : Prop where
  kept : ∀ i, i ≠ old → (q.instr i).parent = (p.instr i).parent ∧ (q.instr i).name = (p.instr i).name
  operands : ∀ i, (p.instr i).erased = false → (p.instr i).parent.isSome = true →
    (q.instr i).operands = (p.instr i).operands.map (substitute (.instr old) v)
  uses : ∀ o i, (q.instr i).uses (.instr o) = true →
    (p.instr i).uses (.instr o) = true ∨ mentions (.instr o) v = true
  globals : ∀ o g, (q.global g).uses (.instr o) = true →
    (p.global g).uses (.instr o) = true ∨ mentions (.instr o) v = true

theorem uses_dropInstr (p : Program) (old i : InstrId) (v : Value) :
    ((p.dropInstr old).instr i).uses v = (p.instr i).uses v := by
  unfold Instr.uses
  rw [(same_dropInstr p old i).2.2]

theorem handsOver_replaceUses (p : Program) (old : InstrId) (v : Value) :
    HandsOver old v p ((p.replaceUses (.instr old) v).dropInstr old) where
  kept i hi := by
    rw [instr_dropInstr_ne hi.symm, instr_replaceUses]
    split <;> exact ⟨rfl, rfl⟩
  operands i hlive _ := by
    rw [(same_dropInstr _ old i).2.2, instr_replaceUses_live hlive]
  uses o i h := by
    rw [uses_dropInstr] at h
    exact uses_replaceUses rfl h
  globals o g h := by
    rw [global_dropInstr] at h
    exact global_uses_replaceUses rfl h

theorem handsOver_unused (hunused : p.hasUses (.instr old) = false) (v : Value) :
    HandsOver old v p (p.dropInstr old) where
  kept i hi := by
    rw [instr_dropInstr_ne hi.symm]
    exact ⟨rfl, rfl⟩
  operands i hlive hparent := by
    rw [(same_dropInstr p old i).2.2, substitute_of_not_uses]
    refine Bool.eq_false_iff.mpr fun huses => ?_
    exact Bool.eq_false_iff.mp hunused (hasUses_iff.mpr (.inl ⟨i, hlive, hparent, huses⟩))
  uses o i h := .inl (uses_dropInstr p old i _ ▸ h)
  globals o g h := .inl (global_dropInstr p old g ▸ h)

theorem unmentioned_replaceUses (hv : mentions (.instr old) v = false) :
    ((p.replaceUses (.instr old) v).dropInstr old).Unmentioned old where
  instr i hlive := by
    have hne : old ≠ i := by
      rintro rfl
      by_cases hlt : old.index < (p.replaceUses (.instr old) v).instrs.size
      · rw [instr_dropInstr_self hlt] at hlive
        cases hlive
      · rw [instr_of_le (by rw [(sizes_dropInstr _ old).2.2]; exact Nat.not_lt.mp hlt)] at hlive
        cases hlive
    rw [instr_dropInstr_ne hne] at hlive ⊢
    rw [((sameFrame_replaceUses p _ _).instr i).2] at hlive
    exact not_uses_replaceUses rfl hv hlive
  global g := by
    rw [global_dropInstr]
    exact not_global_uses_replaceUses rfl hv g

/-- **What one entry does** to a program in which its instruction is there. -/
structure Stepped (r : Replacement) (p q : Program) : Prop where
  sound : q.Sound
  func : ∀ f, q.func f = p.func f
  listed : ∀ b, (q.block b).instrs = (p.block b).instrs.filterMap (stands [r])
  gone : (q.instr r.old).erased = true
  live : ∀ i, i ≠ r.old → (q.instr i).erased = (p.instr i).erased
  ty : ∀ i, (q.instr i).ty = (p.instr i).ty
  stood : r.new.isSome = true → (p.instr r.old).parent.isSome = true
  guest : ∀ a, r.new = some a → (p.instr a).erased = false ∧ (p.instr a).parent = none ∧
    (q.instr a).parent.isSome = true ∧ (q.instr a).name = (p.instr r.old).name
  kept : ∀ i, i ≠ r.old → r.new ≠ some i →
    (q.instr i).parent = (p.instr i).parent ∧ (q.instr i).name = (p.instr i).name
  operands : ∀ i, (p.instr i).erased = false → (p.instr i).parent.isSome = true →
    (q.instr i).operands = (p.instr i).operands.map (substitute (.instr r.old) (p.heir r))
  uses : ∀ o i, (q.instr i).uses (.instr o) = true →
    (p.instr i).uses (.instr o) = true ∨ r.new = some o
  globals : ∀ o g, (q.global g).uses (.instr o) = true →
    (p.global g).uses (.instr o) = true ∨ r.new = some o
  unmentioned : r.new.isSome = true ∨ p.hasUses (.instr r.old) = true → q.Unmentioned r.old

theorem Spliced.listed_stands (h : Spliced [r] p q) (b : BlockId) :
    (q.block b).instrs = (p.block b).instrs.filterMap (stands [r]) := by
  rw [h.listed, List.filterMap_eq_flatMap_toList]
  exact List.flatMap_congr fun i _ => splice_eq_stands r i

theorem stepped_deleteInstr (hp : p.Sound) (hlive : (p.instr old).erased = false)
    (h : p.deleteInstr old = .ok q) : Stepped ⟨old, none⟩ p q := by
  obtain ⟨q', hq', hspliced⟩ := spliced_deleteInstr hp hlive
  obtain rfl : q' = q := Except.ok.inj (hq'.symm.trans h)
  obtain ⟨-, rfl⟩ := eraseInstr_ok.mp h
  have hgiven : HandsOver old (.undef (p.instr old).ty) p ((if p.hasUses (.instr old) then
      p.replaceUses (.instr old) (.undef (p.instr old).ty) else p).dropInstr old) := by
    split
    · exact handsOver_replaceUses p old _
    · rename_i hunused
      exact handsOver_unused (Bool.eq_false_iff.mpr hunused) _
  have hheir := fun {o : InstrId} => mentions_heir p ⟨old, none⟩ o
  exact
    { sound := hspliced.sound
      func := hspliced.func
      listed := hspliced.listed_stands
      gone := hspliced.gone old (List.mem_singleton_self old)
      live := fun i hi => hspliced.live i fun h => hi (List.mem_singleton.mp h)
      ty := fun i => (hspliced.instr i).2.1
      stood := nofun
      guest := nofun
      kept := fun i hi _ => hgiven.kept i hi
      operands := hgiven.operands
      uses := fun o i h => (hgiven.uses o i h).imp_right hheir.mp
      globals := fun o g h => (hgiven.globals o g h).imp_right hheir.mp
      unmentioned := fun h => by
        rw [if_pos (h.resolve_left Bool.false_ne_true)]
        exact unmentioned_replaceUses rfl }

/-- A new instruction stands beside another one and has taken over its name. -/
structure TakesPlace (old new : InstrId) (b : BlockId) (p q : Program) : Prop where
  made : q.instr new = { p.instr new with parent := some b, name := (p.instr old).name }
  other : ∀ i, i ≠ old → i ≠ new → q.instr i = p.instr i
  same : ∀ i, (q.instr i).operands = (p.instr i).operands ∧ (q.instr i).erased = (p.instr i).erased
  stands : ∀ i, (p.instr i).parent.isSome = true → (q.instr i).parent.isSome = true
  global : ∀ g, q.global g = p.global g

theorem takesPlace_takeName {b : BlockId} {front back : List InstrId} (hne : new ≠ old)
    (h : Placed p s old new b front back) (hglobal : ∀ g, s.global g = p.global g) :
    TakesPlace old new b p (s.takeName old new) := by
  have hsame : ∀ i, (s.instr i).operands = (p.instr i).operands ∧
      (s.instr i).erased = (p.instr i).erased ∧
      ((p.instr i).parent.isSome = true → (s.instr i).parent.isSome = true) := by
    intro i
    by_cases hi : i = new
    · rw [hi, h.made]
      exact ⟨rfl, rfl, fun _ => rfl⟩
    · rw [h.instr i hi]
      exact ⟨rfl, rfl, id⟩
  refine ⟨?_, fun i hi hi' => ?_, fun i => ?_, fun i hi => ?_, fun g => hglobal g⟩
  · have hlt : new.index < s.instrs.size := h.size ▸ instr_lt_of_live h.live
    rw [takeName, setInstrName, setInstrName, instr_updateInstr_self (by simpa [updateInstr] using hlt),
      instr_updateInstr_ne hne.symm, h.made, h.instr old hne.symm]
  · rw [takeName, setInstrName, setInstrName, instr_updateInstr_ne hi'.symm,
      instr_updateInstr_ne hi.symm, h.instr i hi']
  · obtain ⟨m, hm⟩ := instr_takeName s old new i
    rw [hm]
    exact ⟨(hsame i).1, (hsame i).2.1⟩
  · obtain ⟨m, hm⟩ := instr_takeName s old new i
    rw [hm]
    exact (hsame i).2.2 hi

theorem stepped_replaceInstr (hp : p.Sound) (h : p.replaceInstr old new = .ok q) :
    Stepped ⟨old, some new⟩ p q := by
  obtain ⟨s, hinsert, herase⟩ := replaceInstr_ok.mp h
  obtain ⟨b, front, back, hplaced⟩ := insertBeside_placed hp (Nat.zero_le 1) hinsert
  obtain ⟨-, c, k, hpos, hattach⟩ := insertBeside_ok.mp hinsert
  have hlive := (positionOf_ok.mp hpos).1
  have hne : new ≠ old := by
    rintro rfl
    exact nomatch hplaced.detached.symm.trans hplaced.anchored
  obtain ⟨q', hq', hspliced⟩ := spliced_replaceInstr hp hlive (by rw [hplaced.anchored]; rfl) hne
    hplaced.live hplaced.detached
  obtain rfl : q' = q := Except.ok.inj (hq'.symm.trans h)
  obtain ⟨-, rfl⟩ := eraseInstr_ok.mp herase
  have htakes := takesPlace_takeName hne hplaced fun g => by rw [hattach]; rfl
  have hgiven := handsOver_replaceUses (s.takeName old new) old (.instr new)
  have hheir := fun {o : InstrId} => mentions_heir p ⟨old, some new⟩ o
  exact
    { sound := hspliced.sound
      func := hspliced.func
      listed := hspliced.listed_stands
      gone := hspliced.gone old (List.mem_singleton_self old)
      live := fun i hi => hspliced.live i fun h => hi (List.mem_singleton.mp h)
      ty := fun i => (hspliced.instr i).2.1
      stood := fun _ => by
        rw [hplaced.anchored]
        rfl
      guest := by
        rintro a ⟨⟩
        obtain ⟨hparent, htaken⟩ := hgiven.kept new hne
        rw [htakes.made] at hparent htaken
        exact ⟨hplaced.live, hplaced.detached, by rw [hparent]; rfl, htaken⟩
      kept := fun i hi hi' => by
        rw [← htakes.other i hi fun heq => hi' (heq ▸ rfl)]
        exact hgiven.kept i hi
      operands := fun i hlive hparent => by
        rw [hgiven.operands i ((htakes.same i).2.trans hlive) (htakes.stands i hparent),
          (htakes.same i).1]
        rfl
      uses := fun o i h => by
        rw [Instr.uses, ← (htakes.same i).1]
        exact (hgiven.uses o i h).imp_right hheir.mp
      globals := fun o g h => by
        rw [← htakes.global]
        exact (hgiven.globals o g h).imp_right hheir.mp
      unmentioned := fun _ => unmentioned_replaceUses (by simpa [mentions] using hne) }

theorem stepped_replaceOne (hp : p.Sound) (hlive : (p.instr r.old).erased = false)
    (h : p.replaceOne r = .ok q) : Stepped r p q := by
  obtain ⟨old, new⟩ := r
  cases new with
  | none => exact stepped_deleteInstr hp hlive h
  | some new => exact stepped_replaceInstr hp h

/-! ## 3. All entries -/

theorem replaceEach_cons_ok : replaceEach (r :: rs) p = .ok n q ↔
    (p.instr r.old).erased = true ∧ replaceEach rs p = .ok n q ∨
      (p.instr r.old).erased = false ∧ ∃ s m, p.replaceOne r = .ok s ∧ replaceEach rs s = .ok m q ∧
        n = m + 1 := by
  rw [replaceEach, get_bind]
  cases (p.instr r.old).erased with
  | true => simp
  | false =>
    simp only [Bool.false_eq_true, if_false, false_and, false_or, true_and]
    constructor
    · intro h
      obtain ⟨_, s, hone, h⟩ := bind_ok h
      obtain ⟨m, t, hrest, h⟩ := bind_ok h
      obtain ⟨rfl, rfl⟩ := pure_ok h
      exact ⟨s, m, attempt_ok.mp hone, hrest, rfl⟩
    · rintro ⟨s, m, hone, hrest, rfl⟩
      rw [bind_of_ok (a := ()) (attempt_ok.mpr hone), bind_of_ok hrest]
      rfl

theorem pending_cons_of_gone (h : (p.instr r.old).erased = true) (rs : List Replacement) :
    p.pending (r :: rs) = p.pending rs := List.filter_cons_of_neg (by simp [h])

theorem pending_cons_of_live (h : (p.instr r.old).erased = false) (rs : List Replacement) :
    p.pending (r :: rs) = r :: p.pending rs := List.filter_cons_of_pos (by simp [h])

theorem Ready.pending (h : Ready rs p) : p.pending rs = rs :=
  List.filter_eq_self.mpr fun r hr => by simp [h.live r hr]

theorem Stepped.pending (h : Stepped r p q) (hr : r.old ∉ rs.map (·.old)) :
    q.pending rs = p.pending rs := by
  refine List.filter_congr fun x hx => ?_
  rw [h.live x.old fun heq => hr (List.mem_map.mpr ⟨x, hx, heq⟩)]

theorem Stepped.heir (h : Stepped r p q) (x : Replacement) : q.heir x = p.heir x := by
  unfold Program.heir
  rw [h.ty]

theorem Stepped.handOver (h : Stepped r p q) (rs : List Replacement) (v : Value) :
    q.handOver rs v = p.handOver rs v := by
  unfold Program.handOver
  simp only [h.heir]

/-- **What has become of a program** when a schedule has been carried out in this order. -/
structure Carried (rs : List Replacement) (p q : Program) : Prop where
  sound : q.Sound
  func : ∀ f, q.func f = p.func f
  gone : ∀ r ∈ rs, (q.instr r.old).erased = true
  live : ∀ i, i ∉ rs.map (·.old) → (q.instr i).erased = (p.instr i).erased
  stood : ∀ r ∈ p.pending rs, r.new.isSome = true →
    (p.instr r.old).parent.isSome = true ∨ r.old ∈ (p.pending rs).filterMap (·.new)
  listed : ∀ b, (q.block b).instrs = (p.block b).instrs.filterMap (stands (p.pending rs))
  named : ∀ i j, (p.instr i).parent.isSome = true → stands (p.pending rs) i = some j →
    (q.instr j).name = (p.instr i).name
  operands : ∀ i, i ∉ rs.map (·.old) → (p.instr i).parent.isSome = true →
    (q.instr i).operands = (p.instr i).operands.map (p.handOver (p.pending rs))

theorem Carried.nil (hp : p.Sound) : Carried [] p p where
  sound := hp
  func _ := rfl
  gone := nofun
  live _ _ := rfl
  stood := nofun
  listed _ := List.filterMap_some.symm
  named i j _ hj := by
    cases hj
    rfl
  operands _ _ _ := (List.map_id _).symm

theorem Carried.skip (h : Carried rs p q) (hr : (p.instr r.old).erased = true)
    (hnot : r.old ∉ rs.map (·.old)) : Carried (r :: rs) p q where
  sound := h.sound
  func := h.func
  gone := List.forall_mem_cons.mpr ⟨(h.live r.old hnot).trans hr, h.gone⟩
  live i hi := h.live i (not_or.mp (mt List.mem_cons.mpr hi)).2
  stood := by
    rw [pending_cons_of_gone hr]
    exact h.stood
  listed b := by
    rw [pending_cons_of_gone hr]
    exact h.listed b
  named i j := by
    rw [pending_cons_of_gone hr]
    exact h.named i j
  operands i hi := by
    rw [pending_cons_of_gone hr]
    exact h.operands i (not_or.mp (mt List.mem_cons.mpr hi)).2

theorem Carried.cons (hp : p.Sound) (hlive : (p.instr r.old).erased = false)
    (hnot : r.old ∉ rs.map (·.old)) (hq : Stepped r p q) (h : Carried rs q s) :
    Carried (r :: rs) p s where
  sound := h.sound
  func f := (h.func f).trans (hq.func f)
  gone := List.forall_mem_cons.mpr ⟨(h.live r.old hnot).trans hq.gone, h.gone⟩
  live i hi := by
    obtain ⟨hne, hrest⟩ := not_or.mp (mt List.mem_cons.mpr hi)
    exact (h.live i hrest).trans (hq.live i hne)
  stood := by
    have hrest := h.stood
    rw [hq.pending hnot] at hrest
    rw [pending_cons_of_live hlive]
    refine List.forall_mem_cons.mpr ⟨fun hnew => .inl (hq.stood hnew), fun x hx hnew => ?_⟩
    have hne : x.old ≠ r.old := fun heq =>
      hnot (List.mem_map.mpr ⟨x, List.mem_of_mem_filter hx, heq⟩)
    by_cases hguest : r.new = some x.old
    · exact .inr (List.mem_filterMap.mpr ⟨r, List.mem_cons_self, hguest⟩)
    · refine (hrest x hx hnew).imp (fun hparent => (hq.kept _ hne hguest).1 ▸ hparent) fun hmem => ?_
      exact List.filterMap_subset _ (List.subset_cons_self r _) hmem
  listed b := by
    rw [h.listed b, hq.listed b, List.filterMap_filterMap, hq.pending hnot, pending_cons_of_live hlive]
    exact List.filterMap_congr fun i _ => (stands_cons r _ i).symm
  named i j hi hj := by
    rw [pending_cons_of_live hlive, stands] at hj
    have hrest := h.named
    rw [hq.pending hnot] at hrest
    by_cases hold : i = r.old
    · rw [if_pos hold] at hj
      obtain ⟨a, ha, hj⟩ := Option.bind_eq_some_iff.mp hj
      obtain ⟨-, -, hparent, hname⟩ := hq.guest a ha
      rw [hrest a j hparent hj, hname, hold]
    · rw [if_neg hold] at hj
      have hguest : r.new ≠ some i := fun hnew => by
        rw [(hq.guest i hnew).2.1] at hi
        cases hi
      obtain ⟨hparent, hname⟩ := hq.kept i hold hguest
      rw [hrest i j (hparent ▸ hi) hj, hname]
  operands i hi hparent := by
    obtain ⟨hne, hrest⟩ := not_or.mp (mt List.mem_cons.mpr hi)
    have hguest : r.new ≠ some i := fun hnew => by
      rw [(hq.guest i hnew).2.1] at hparent
      cases hparent
    obtain ⟨b, hb⟩ := Option.isSome_iff_exists.mp hparent
    have hlive' := hp.instr_live (hp.mem_instrs.mpr hb)
    rw [h.operands i hrest ((hq.kept i hne hguest).1 ▸ hparent), hq.operands i hlive' hparent,
      List.map_map, hq.pending hnot, pending_cons_of_live hlive]
    refine List.map_congr_left fun v _ => ?_
    exact hq.handOver _ _

theorem replaceEach_carried (hp : p.Sound) (hnodup : (rs.map (·.old)).Nodup)
    (h : replaceEach rs p = .ok n q) : Carried rs p q ∧ n = (p.pending rs).length := by
  induction rs generalizing p n with
  | nil =>
    cases h
    exact ⟨.nil hp, rfl⟩
  | cons r rs ih =>
    obtain ⟨hnot, hnodup⟩ := List.nodup_cons.mp hnodup
    rcases replaceEach_cons_ok.mp h with ⟨hgone, hrest⟩ | ⟨hlive, s, m, hone, hrest, rfl⟩
    · obtain ⟨hcarried, rfl⟩ := ih hp hnodup hrest
      exact ⟨hcarried.skip hgone hnot, by rw [pending_cons_of_gone hgone]⟩
    · have hstep := stepped_replaceOne hp hlive hone
      obtain ⟨hcarried, rfl⟩ := ih hstep.sound hnodup hrest
      refine ⟨hcarried.cons hp hlive hnot hstep, ?_⟩
      rw [hstep.pending hnot, pending_cons_of_live hlive, List.length_cons]

theorem Carried.replaced (h : Carried rs p q) (hp : p.Sound) (hnodup : (rs.map (·.old)).Nodup)
    (hr : r ∈ p.pending rs) (hnew : r.new = some new) (hkept : new ∉ rs.map (·.old)) {b : BlockId}
    (hb : r.old ∈ (p.block b).instrs) :
    new ∈ (q.block b).instrs ∧ (q.instr new).name = (p.instr r.old).name := by
  have hsub : ((p.pending rs).map (·.old)).Sublist (rs.map (·.old)) := List.filter_sublist.map _
  have hstands : stands (p.pending rs) r.old = some new := by
    rw [stands_of_mem (hnodup.sublist hsub) hr, hnew]
    intro a ha hmem
    rw [hnew, Option.some_inj] at ha
    exact hkept (ha ▸ hsub.subset hmem)
  refine ⟨?_, h.named _ _ (by rw [hp.mem_instrs.mp hb]; rfl) hstands⟩
  rw [h.listed b]
  exact List.mem_filterMap.mpr ⟨r.old, hb, hstands⟩

/-! ## 4. Uses of what has gone -/

/-- A use of an instruction has been overlooked where the instruction was deleted: nothing in a block
    used it then, but a new instruction that is put in its place later did. -/
def Overlooks (p : Program) (rs : List Replacement) (o : InstrId) : Prop :=
  ∃ front back n q, rs = front ++ ⟨o, none⟩ :: back ∧ replaceEach front p = .ok n q ∧
    q.hasUses (.instr o) = false ∧
      ∃ r ∈ back, ∃ a, r.new = some a ∧ (q.instr a).uses (.instr o) = true

theorem Overlooks.skip (h : p.Overlooks rs o) (hr : (p.instr r.old).erased = true) :
    p.Overlooks (r :: rs) o := by
  obtain ⟨front, back, n, q, rfl, hfront, hrest⟩ := h
  exact ⟨r :: front, back, n, q, rfl, replaceEach_cons_ok.mpr (.inl ⟨hr, hfront⟩), hrest⟩

theorem Overlooks.cons (h : q.Overlooks rs o) (hr : (p.instr r.old).erased = false)
    (hone : p.replaceOne r = .ok q) : p.Overlooks (r :: rs) o := by
  obtain ⟨front, back, n, s, rfl, hfront, hrest⟩ := h
  exact ⟨r :: front, back, n + 1, s, rfl,
    replaceEach_cons_ok.mpr (.inr ⟨hr, q, n, hone, hfront, rfl⟩), hrest⟩

theorem Stepped.hasUses (h : Stepped r p q) (hnew : r.new ≠ some o)
    (huses : q.hasUses (.instr o) = true) : p.hasUses (.instr o) = true ∨
      ∃ a, r.new = some a ∧ (p.instr a).erased = false ∧ (p.instr a).uses (.instr o) = true := by
  rcases hasUses_iff.mp huses with ⟨i, hlive, hparent, huse⟩ | ⟨g, huse⟩
  · have hne : i ≠ r.old := by
      rintro rfl
      rw [h.gone] at hlive
      cases hlive
    have huse := (h.uses o i huse).resolve_right hnew
    rw [h.live i hne] at hlive
    by_cases hguest : r.new = some i
    · exact .inr ⟨i, hguest, hlive, huse⟩
    · rw [(h.kept i hne hguest).1] at hparent
      exact .inl (hasUses_iff.mpr (.inl ⟨i, hlive, hparent, huse⟩))
  · exact .inl (hasUses_iff.mpr (.inr ⟨g, (h.globals o g huse).resolve_right hnew⟩))

theorem use_of_replaceEach (hp : p.Sound) (hgone : (p.instr o).erased = true)
    (hunused : p.hasUses (.instr o) = false) (h : replaceEach rs p = .ok n q)
    (huses : q.hasUses (.instr o) = true) :
    ∃ r ∈ rs, ∃ a, r.new = some a ∧ (p.instr a).erased = false ∧ (p.instr a).uses (.instr o) = true := by
  induction rs generalizing p n with
  | nil =>
    cases h
    rw [hunused] at huses
    cases huses
  | cons r rs ih =>
    rcases replaceEach_cons_ok.mp h with ⟨-, hrest⟩ | ⟨hlive, s, m, hone, hrest, rfl⟩
    · obtain ⟨x, hx, hfound⟩ := ih hp hgone hunused hrest
      exact ⟨x, List.mem_cons_of_mem r hx, hfound⟩
    have hstep := stepped_replaceOne hp hlive hone
    have hne : o ≠ r.old := by
      rintro rfl
      rw [hlive] at hgone
      cases hgone
    have hnew : r.new ≠ some o := fun ho => by
      rw [(hstep.guest o ho).1] at hgone
      cases hgone
    cases hused : s.hasUses (.instr o) with
    | true =>
      obtain ⟨a, hfound⟩ := (hstep.hasUses hnew hused).resolve_left (by simp [hunused])
      exact ⟨r, List.mem_cons_self, a, hfound⟩
    | false =>
      obtain ⟨x, hx, a, ha, halive, hause⟩ :=
        ih hstep.sound ((hstep.live o hne).trans hgone) hused hrest
      have hane : a ≠ r.old := by
        rintro rfl
        rw [hstep.gone] at halive
        cases halive
      exact ⟨x, List.mem_cons_of_mem r hx, a, ha, (hstep.live a hane) ▸ halive,
        (hstep.uses o a hause).resolve_right hnew⟩

theorem replaceEach_unused (hp : p.Sound) (hnodup : (rs.map (·.old)).Nodup)
    (h : replaceEach rs p = .ok n q) (hr : r ∈ rs) (hlive : (p.instr r.old).erased = false)
    (huses : q.hasUses (.instr r.old) = true) : p.Overlooks rs r.old := by
  induction rs generalizing p n with
  | nil => cases hr
  | cons x rs ih =>
    obtain ⟨hnot, hnodup⟩ := List.nodup_cons.mp hnodup
    rcases replaceEach_cons_ok.mp h with ⟨hgone, hrest⟩ | ⟨hxlive, s, m, hone, hrest, rfl⟩
    · rcases List.mem_cons.mp hr with rfl | hr
      · rw [hlive] at hgone
        cases hgone
      · exact (ih hp hnodup hrest hr hlive).skip hgone
    have hstep := stepped_replaceOne hp hxlive hone
    rcases List.mem_cons.mp hr with rfl | hr
    · have hfree : ¬ s.Unmentioned r.old := fun hfree => by
        obtain ⟨y, -, a, -, halive, hause⟩ :=
          use_of_replaceEach hstep.sound hstep.gone hfree.hasUses hrest huses
        rw [hfree.instr a halive] at hause
        cases hause
      obtain ⟨hnone, hunused⟩ := not_or.mp (mt hstep.unmentioned hfree)
      obtain ⟨old, new⟩ := r
      cases new with
      | some a => exact absurd rfl hnone
      | none =>
        have hused : s.hasUses (.instr old) = false :=
          Bool.eq_false_iff.mpr fun hused => (hstep.hasUses nofun hused).elim hunused nofun
        obtain ⟨y, hy, a, ha, -, hause⟩ := use_of_replaceEach hstep.sound hstep.gone hused hrest huses
        exact ⟨[], rs, 0, p, rfl, rfl, Bool.eq_false_iff.mpr hunused, y, hy, a, ha,
          (hstep.uses old a hause).resolve_right nofun⟩
    · have hne : r.old ≠ x.old := fun heq => hnot (List.mem_map.mpr ⟨r, hr, heq⟩)
      exact (ih hstep.sound hnodup hrest hr ((hstep.live r.old hne).trans hlive)).cons hxlive hone

end Program

/-! ## 5. Schedules as they are handed in -/

theorem count_of_firstRepeated? {seen ids : List InstrId} {id : InstrId}
    (h : firstRepeated? seen ids = some id) : id ∈ seen ∧ id ∈ ids ∨ 1 < ids.count id := by
  induction ids generalizing seen with
  | nil => cases h
  | cons x ids ih =>
    unfold firstRepeated? at h
    split at h
    · rename_i hseen
      cases h
      exact .inl ⟨by simpa using hseen, List.mem_cons_self⟩
    · rcases ih h with ⟨hmem, hids⟩ | hcount
      · rcases List.mem_cons.mp hmem with rfl | hmem
        · rw [List.count_cons_self]
          exact .inr (Nat.succ_lt_succ (List.count_pos_iff.mpr hids))
        · exact .inl ⟨hmem, List.mem_cons_of_mem x hids⟩
      · exact .inr (Nat.lt_of_lt_of_le hcount List.count_le_count_cons)

open Program

/-- Two entries for one instruction are refused before anything is done. Otherwise each entry is
    carried out, the last first: a new instruction takes place and name, and nothing refers to what
    has gone, unless a deletion has overlooked a use (`Overlooks`). Entries for instructions that
    are gone beforehand are passed over. -/
theorem carryOut_replaces {p : Program} (hp : p.Sound) (rs : List Replacement) :
    (¬ (rs.map (·.old)).Nodup → ∃ id, 1 < (rs.map (·.old)).count id ∧
        carryOut rs p = .error (.replacementConflict id) p) ∧
      ∀ n q, carryOut rs p = .ok n q → (rs.map (·.old)).Nodup ∧ n = (p.pending rs).length ∧
        Carried rs.reverse p q ∧ ∀ r ∈ rs, (p.instr r.old).erased = false →
          (∀ a b, r.new = some a → a ∉ rs.map (·.old) → r.old ∈ (p.block b).instrs →
            a ∈ (q.block b).instrs ∧ (q.instr a).name = (p.instr r.old).name) ∧
          (q.hasUses (.instr r.old) = true → p.Overlooks rs.reverse r.old) := by
  unfold carryOut
  cases hfirst : firstRepeated? [] (rs.map (·.old)) with
  | some id =>
    refine ⟨fun _ => ⟨id, ?_, rfl⟩, fun n q h => nomatch h⟩
    exact (count_of_firstRepeated? hfirst).resolve_left fun h => List.not_mem_nil h.1
  | none =>
    have hnodup := (nodup_of_firstRepeated? hfirst).1
    refine ⟨fun hnot => absurd hnodup hnot, fun n q h => ?_⟩
    have hrun := compileEdit_ok.mp h
    have holds : rs.reverse.map (·.old) = (rs.map (·.old)).reverse := List.map_reverse
    have hreverse : (rs.reverse.map (·.old)).Nodup := holds ▸ List.nodup_reverse.mpr hnodup
    obtain ⟨hcarried, hn⟩ := replaceEach_carried hp hreverse hrun
    refine ⟨hnodup, ?_, hcarried, fun r hr hlive => ⟨fun a b hnew hkept hb => ?_, fun huses => ?_⟩⟩
    · rw [hn, pending, List.filter_reverse, List.length_reverse]
      rfl
    · have hpending : r ∈ p.pending rs.reverse :=
        List.mem_filter.mpr ⟨List.mem_reverse.mpr hr, by simp [hlive]⟩
      refine hcarried.replaced hp hreverse hpending hnew (fun hmem => hkept ?_) hb
      rwa [holds, List.mem_reverse] at hmem
    · exact replaceEach_unused hp hreverse hrun (List.mem_reverse.mpr hr) hlive huses

/-- A result is not used, and a sum is returned. Two instructions stand ready, one of which uses the
    result. -/
def summing : Program where
  name := "summing"
  functions := #[
    ⟨"number", .int 64, [], false, none, none, [], [], false⟩,
    ⟨"Main", .int 64, [], false, none, none, [], [⟨0⟩], false⟩]
  blocks := #[⟨some "entry", some ⟨1⟩, [⟨0⟩, ⟨1⟩, ⟨2⟩], false⟩]
  instrs := #[
    ⟨.call .none, .int 64, [.func ⟨0⟩], some "x", some ⟨0⟩, false⟩,
    ⟨.binary .add, .int 64, [.int 64 1, .int 64 1], some "sum", some ⟨0⟩, false⟩,
    ⟨.ret, .void, [.instr ⟨1⟩], none, some ⟨0⟩, false⟩,
    ⟨.binary .add, .int 64, [.int 64 1, .int 64 2], none, none, false⟩,
    ⟨.binary .shl, .int 64, [.instr ⟨0⟩, .int 64 1], none, none, false⟩]

theorem carryOut_replaces_summing : ∃ n q,
    carryOut [⟨⟨0⟩, some ⟨3⟩⟩, ⟨⟨1⟩, some ⟨4⟩⟩] summing = .ok n q ∧
      ((q.block ⟨0⟩).instrs = [⟨3⟩, ⟨4⟩, ⟨2⟩] ∧ (q.instr ⟨4⟩).operands = [.instr ⟨3⟩, .int 64 1] ∧
        (q.instr ⟨2⟩).operands = [.instr ⟨4⟩] ∧ q.hasUses (.instr ⟨0⟩) = false) ∧
      n = 2 ∧ (q.instr ⟨0⟩).erased = true ∧ (q.instr ⟨4⟩).name = some "sum" := by
  obtain ⟨n, q, hrun, holds⟩ := exists_ok
    (r := carryOut [⟨⟨0⟩, some ⟨3⟩⟩, ⟨⟨1⟩, some ⟨4⟩⟩] summing)
    (P := fun q => (q.block ⟨0⟩).instrs = [⟨3⟩, ⟨4⟩, ⟨2⟩] ∧
      (q.instr ⟨4⟩).operands = [.instr ⟨3⟩, .int 64 1] ∧ (q.instr ⟨2⟩).operands = [.instr ⟨4⟩] ∧
        q.hasUses (.instr ⟨0⟩) = false) (by decide +kernel)
  obtain ⟨-, hn, hcarried, hentries⟩ :=
    (carryOut_replaces (p := summing) (by decide +kernel) _).2 n q hrun
  have hname := ((hentries ⟨⟨1⟩, some ⟨4⟩⟩ (by decide) rfl).1 ⟨4⟩ ⟨0⟩ rfl (by decide) (by decide)).2
  exact ⟨n, q, hrun, holds, hn, hcarried.gone ⟨⟨0⟩, some ⟨3⟩⟩ (by decide), hname⟩

/-- What is returned is gone, and it is still referred to. -/
def leftover : Program where
  name := "leftover"
  functions := #[⟨"Main", .int 64, [], false, none, none, [], [⟨0⟩], false⟩]
  blocks := #[⟨some "entry", some ⟨0⟩, [⟨1⟩], false⟩]
  instrs := #[
    ⟨.binary .add, .int 64, [.int 64 1, .int 64 2], none, none, true⟩,
    ⟨.ret, .void, [.instr ⟨0⟩], none, some ⟨0⟩, false⟩]

/-- A deletion undefines what still refers to the old instruction, but only if something attached
    does. Carried out in the one order, the detached instruction is placed with an operand that is
    gone; in the other order it is undefined. What is gone beforehand is passed over. -/
theorem deletion_overlooks_detached : summing.Sound ∧ leftover.Sound ∧
    (∃ n q, carryOut [⟨⟨1⟩, some ⟨4⟩⟩, ⟨⟨0⟩, none⟩] summing = .ok n q ∧
      (q.instr ⟨0⟩).erased = true ∧ (q.block ⟨0⟩).instrs = [⟨4⟩, ⟨2⟩] ∧
        (q.instr ⟨4⟩).operands = [.instr ⟨0⟩, .int 64 1]) ∧
    (∃ n q, carryOut [⟨⟨0⟩, none⟩, ⟨⟨1⟩, some ⟨4⟩⟩] summing = .ok n q ∧
      (q.instr ⟨4⟩).operands = [.undef (.int 64), .int 64 1]) ∧
    ∃ n q, carryOut [⟨⟨0⟩, none⟩] leftover = .ok n q ∧
      (q.instr ⟨0⟩).erased = true ∧ q.hasUses (.instr ⟨0⟩) = true :=
  ⟨by decide +kernel, by decide +kernel, exists_ok (by decide +kernel), exists_ok (by decide +kernel),
    exists_ok (by decide +kernel)⟩

end QirProfile
