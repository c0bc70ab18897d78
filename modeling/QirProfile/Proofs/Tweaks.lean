import Mathlib.Logic.Relation
import QirProfile.Proofs.Program.Closed

/-!
# What folding does to a function

Folding a function is a row of small changes, all of them in that function: an instruction gives way
to a constant or to one of its operands, an instruction goes, a call or a branch is put before a
terminator, a phi forgets an entry. `Tweak` lists them. So what each of them keeps, a fold keeps.
-/

namespace QirProfile

variable {i id : InstrId} {ids : List InstrId} {m fuel : Nat} {rs : List Replacement}
  {p q : Program} {captures : Captures} {e : Bool}

/-- Whether control goes on in one of two ways that folding may settle: a branch on a condition, or an
    invoke. -/
def Instr.forks (i : Instr) : Bool :=
  match i.kind with
  | .br => i.operands.length == 3
  | .invoke => true
  | _ => false

theorem Instr.forks_congr {i j : Instr} (hkind : j.kind = i.kind)
    (hlength : j.operands.length = i.operands.length) : j.forks = i.forks := by
  rw [forks, forks, hkind, hlength]

theorem Instr.forks_forgetEntry (i : Instr) (source : BlockId) :
    (Program.forgetEntry i source).forks = i.forks := by
  unfold Program.forgetEntry
  split
  · rename_i hkind
    rw [forks, forks, hkind]
  · rfl

theorem Instr.isCall_eq_false {i : Instr} : i.isCall = false ↔ ∀ marker, i.kind ≠ .call marker := by
  unfold isCall
  cases i.kind <;> simp

theorem Instr.isCall_of_forks {i : Instr} (h : i.forks = true) : i.isCall = false := by
  refine isCall_eq_false.mpr fun marker hkind => ?_
  rw [forks, hkind] at h
  cases h

theorem Instr.isCall_forgetEntry (i : Instr) (source : BlockId) :
    (Program.forgetEntry i source).isCall = i.isCall := by
  unfold Program.forgetEntry
  split
  · rename_i hkind
    rw [isCall, isCall, hkind]
  · rfl

namespace Program

variable {e : Bool} {p q r : Program} {c f : FuncId}

/-! ## 1. Small changes -/

/-- One of the changes that a fold of the function `c` is made of. New calls come in where invokes are
    lowered only. -/
inductive Tweak (lowers : Bool) (c : FuncId) (p : Program) : Program → Prop where
  | replace {id : InstrId} {v : Value} (hid : p.functionOf? id = some c)
      (hcall : (p.instr id).isCall = false)
      (hv : v.isConstant = true ∨ v ∈ (p.instr id).operands ∨
        ∃ j, v = .instr j ∧ p.functionOf? j = some c) : Tweak lowers c p (p.replaceUses (.instr id) v)
  | drop {id : InstrId} (hid : p.functionOf? id = some c) : Tweak lowers c p (p.dropInstr id)
  | insert {q : Program} {d : Edit.Draft} {id new : InstrId} (hid : p.functionOf? id = some c)
      (hd : d.operands ⊆ (p.instr id).operands) (hforks : d.instr.forks = false)
      (hnew : d.kind = .br ∨ lowers = true) (h : Edit.insert (.before id) d p = .ok new q) :
      Tweak lowers c p q
  | name (source target : InstrId) : Tweak lowers c p (p.takeName source target)
  | forget (id : InstrId) (source : BlockId) :
      Tweak lowers c p (p.updateInstr id (forgetEntry · source))

/-- Changes in a row. -/
def Tweaks (lowers : Bool) (c : FuncId) : Program → Program → Prop :=
  Relation.ReflTransGen (Tweak lowers c)

theorem Tweaks.refl (p : Program) : Tweaks e c p p := Relation.ReflTransGen.refl

theorem Tweak.tweaks (h : Tweak e c p q) : Tweaks e c p q := Relation.ReflTransGen.single h

theorem Tweaks.trans (h₁ : Tweaks e c p q) (h₂ : Tweaks e c q r) : Tweaks e c p r :=
  Relation.ReflTransGen.trans h₁ h₂

theorem Tweaks.tail (h₁ : Tweaks e c p q) (h₂ : Tweak e c q r) : Tweaks e c p r :=
  Relation.ReflTransGen.tail h₁ h₂

instance : IsPreorder Program (Tweaks e c) where
  refl := .refl
  trans _ _ _ := .trans

theorem Tweak.func (h : Tweak e c p q) (f : FuncId) : q.func f = p.func f := by
  cases h with
  | replace | name | forget => rfl
  | drop => exact func_dropInstr ..
  | insert _ _ _ _ h =>
    obtain ⟨_, _, _, hins⟩ := insert_before_ok h
    exact hins.func f

theorem Tweaks.func (h : Tweaks e c p q) (f : FuncId) : q.func f = p.func f := by
  induction h with
  | refl => rfl
  | tail _ h ih => exact (h.func f).trans ih

theorem Tweak.spares (h : Tweak e c p q) (hp : p.Sound) : q.Sound ∧ Spares (· = c) p q := by
  cases h with
  | replace => exact ⟨((sameFrame_replaceUses ..).evolves hp).1, spares_replaceUses hp _ _⟩
  | drop hid =>
    have hlive := hp.live_of_functionOf hid
    exact ⟨(evolves_dropInstr hlive hp).1,
      spares_dropInstr hp hlive fun f hf => Option.some.inj (hf.symm.trans hid)⟩
  | insert _ _ _ _ h =>
    obtain ⟨_, _, _, hins⟩ := insert_before_ok h
    exact ⟨(hins.evolves hp).1, hins.spares hp⟩
  | name source target =>
    exact ⟨((sameFrame_takeName p source target).evolves hp).1, spares_takeName hp source target⟩
  | forget id source =>
    have hs := sameFrame_updateInstr (g := (forgetEntry · source))
      (fun i => ⟨(forgetEntry_same i source).1, (forgetEntry_same i source).2.1⟩) p id
    exact ⟨(hs.evolves hp).1, (leaves_forgetEntry hp id source).spares⟩

theorem Tweaks.spares (h : Tweaks e c p q) (hp : p.Sound) : q.Sound ∧ Spares (· = c) p q := by
  induction h with
  | refl => exact ⟨hp, .refl hp⟩
  | tail _ h ih =>
    obtain ⟨hq, hspares⟩ := ih
    obtain ⟨hr, hspares'⟩ := h.spares hq
    exact ⟨hr, hspares.trans hspares'⟩

theorem Tweak.enclosed (h : Tweak e c p q) (hp : p.Enclosed) : q.Enclosed ∧ Leaves (· = c) p q := by
  cases h with
  | @replace id v hid hcall hv =>
    refine ⟨hp.replaceUses hid fun hlive => ?_, leaves_replaceUses hp (.inl ⟨fun f hf hid' => ?_,
      c, hid⟩)⟩
    · rcases hv with hv | hv | ⟨j, rfl, hj⟩
      · exact atHome_of_isConstant hv
      · exact hp.operands c id hlive hid v hv
      · exact ⟨instr_lt_of_live (hp.sound.live_of_functionOf hj), fun g hg =>
          Option.some.inj (hg.symm.trans hj)⟩
    · exact hf (Option.some.inj (hid'.symm.trans hid))
  | drop hid =>
    exact ⟨hp.dropInstr (hp.sound.live_of_functionOf hid), leaves_dropInstr hp.sound hid⟩
  | @insert q d id new hid hd hforks hnew h =>
    obtain ⟨b, front, back, hins⟩ := insert_before_ok h
    have hb := Replacing.parent_of_anchored hins hid
    exact ⟨hins.enclosed hp hb fun hlive v hv => hp.operands c id hlive hid v (hd hv),
      hins.leaves hp.sound hb⟩
  | name source target => exact ⟨hp.takeName source target, leaves_takeName hp.sound source target⟩
  | forget id source => exact ⟨hp.forgetEntry id source, leaves_forgetEntry hp.sound id source⟩

theorem Tweaks.enclosed (h : Tweaks e c p q) (hp : p.Enclosed) :
    q.Enclosed ∧ Leaves (· = c) p q := by
  induction h with
  | refl => exact ⟨hp, .refl hp.sound⟩
  | tail _ h ih =>
    obtain ⟨hq, hleaves⟩ := ih
    obtain ⟨hr, hleaves'⟩ := h.enclosed hq
    exact ⟨hr, hleaves.trans hleaves'⟩

theorem Tweaks.inside (h : Tweaks e c p q) (hp : p.Sound) (hi : Inside c p i) :
    Inside c q i :=
  (h.spares hp).2.inside (h.spares hp).1 hi

theorem Tweak.isCall (h : Tweak e c p q) (hi : i.index < p.instrs.size) :
    (q.instr i).isCall = (p.instr i).isCall := by
  cases h with
  | replace =>
    rw [Instr.isCall, Instr.isCall, kind_replaceUses]
  | drop =>
    rw [Instr.isCall, Instr.isCall, (same_dropInstr ..).1]
  | insert _ _ _ _ h =>
    obtain ⟨_, _, _, hins⟩ := insert_before_ok h
    rw [hins.instr i (hins.ne_new hi)]
  | name source target =>
    obtain ⟨name, hname⟩ := instr_takeName p source target i
    rw [hname]
    rfl
  | forget id source =>
    rw [instr_updateInstr]
    split
    · exact Instr.isCall_forgetEntry ..
    · rfl

theorem Tweaks.isCall (h : Tweaks e c p q) (hp : p.Sound)
    (hi : i.index < p.instrs.size) : (q.instr i).isCall = (p.instr i).isCall := by
  induction h with
  | refl => rfl
  | tail h₁ h ih =>
    have hsize := (Tweaks.spares h₁ hp).2.buries.instrs
    exact (h.isCall (Nat.lt_of_lt_of_le hi hsize)).trans ih

theorem Tweak.sameEnds (h : Tweak e c p q) : SameEnds p q := by
  cases h with
  | replace => exact sameEnds_replaceUses rfl _
  | drop => exact sameEnds_dropInstr ..
  | insert _ _ _ _ h =>
    obtain ⟨_, _, _, hins⟩ := insert_before_ok h
    exact hins.sameEnds
  | name => exact sameEnds_takeName ..
  | forget => exact sameEnds_forgetEntry ..

theorem Tweaks.sameEnds (h : Tweaks e c p q) : SameEnds p q := by
  induction h with
  | refl => exact refl_of SameEnds p
  | tail _ h ih => exact trans_of SameEnds ih h.sameEnds

/-- The function refers to another one. -/
def RefersTo (p : Program) (c k : FuncId) : Prop :=
  ∃ i, p.functionOf? i = some c ∧ .func k ∈ (p.instr i).operands

theorem Tweak.stands (h : Tweak e c p q) (hi : q.functionOf? i = some f) :
    (p.functionOf? i = some f ∧ (q.instr i).forks = (p.instr i).forks ∨
      (q.instr i).forks = false) ∧
    ∀ k, .func k ∈ (q.instr i).operands → p.RefersTo f k ∨ p.RefersTo c k := by
  cases h with
  | @replace id v hid hcall hv =>
    rw [((sameFrame_replaceUses p _ v).places fun _ => rfl).functionOf] at hi
    rw [instr_replaceUses]
    split
    · refine ⟨.inl ⟨hi, Instr.forks_congr rfl (List.length_map ..)⟩, fun k hk => ?_⟩
      obtain ⟨w, hw, hwk⟩ := List.mem_map.mp hk
      rcases Value.substitute_instr id v w with hsub | ⟨-, hconstant⟩
      · rw [hsub] at hwk
        split at hwk
        · subst hwk
          rcases hv with hv | hv | ⟨j, hj, -⟩
          · cases hv
          · exact .inr ⟨id, hid, hv⟩
          · cases hj
        · exact .inl ⟨i, hi, hwk ▸ hw⟩
      · rw [hwk] at hconstant
        cases hconstant
    · exact ⟨.inl ⟨hi, rfl⟩, fun k hk => .inl ⟨i, hi, hk⟩⟩
  | @drop id hid =>
    have hne : id ≠ i := by
      rintro rfl
      obtain ⟨b, hb, -⟩ := Option.bind_eq_some_iff.mp hid
      rw [not_functionOf_dropInstr (instr_lt_of_parent hb)] at hi
      cases hi
    rw [functionOf_dropInstr hne] at hi
    rw [instr_dropInstr_ne hne]
    exact ⟨.inl ⟨hi, rfl⟩, fun k hk => .inl ⟨i, hi, hk⟩⟩
  | @insert q d id new hid hd hforks hnew h =>
    obtain ⟨b, front, back, hins⟩ := insert_before_ok h
    by_cases hne : i = new
    · subst hne
      obtain ⟨name, hmade⟩ := hins.made
      rw [hmade]
      exact ⟨.inr hforks, fun k hk => .inr ⟨id, hid, hd hk⟩⟩
    · rw [hins.functionOf hne] at hi
      rw [hins.instr i hne]
      exact ⟨.inl ⟨hi, rfl⟩, fun k hk => .inl ⟨i, hi, hk⟩⟩
  | name source target =>
    rw [((sameFrame_takeName p source target).places fun _ => rfl).functionOf] at hi
    obtain ⟨name, hname⟩ := instr_takeName p source target i
    rw [hname]
    exact ⟨.inl ⟨hi, rfl⟩, fun k hk => .inl ⟨i, hi, hk⟩⟩
  | forget id source =>
    rw [((sameFrame_updateInstr (g := (forgetEntry · source)) (fun i =>
      ⟨(forgetEntry_same i source).1, (forgetEntry_same i source).2.1⟩) p id).places
      fun _ => rfl).functionOf] at hi
    rw [instr_updateInstr]
    split
    · exact ⟨.inl ⟨hi, Instr.forks_forgetEntry ..⟩,
        fun k hk => .inl ⟨i, hi, (forgetEntry_same _ source).2.2.2 hk⟩⟩
    · exact ⟨.inl ⟨hi, rfl⟩, fun k hk => .inl ⟨i, hi, hk⟩⟩

theorem Tweaks.refersTo_back (h : Tweaks e c p q) {k : FuncId} (hk : q.RefersTo c k) :
    p.RefersTo c k := by
  induction h with
  | refl => exact hk
  | tail _ h ih =>
    obtain ⟨i, hi, hmem⟩ := hk
    exact ih (((h.stands hi).2 k hmem).elim id id)

theorem Tweaks.forks_back (h : Tweaks e c p q) (hi : q.functionOf? i = some f)
    (hforks : (q.instr i).forks = true) : p.functionOf? i = some f ∧ (p.instr i).forks = true := by
  induction h with
  | refl => exact ⟨hi, hforks⟩
  | tail _ h ih =>
    rcases (h.stands hi).1 with ⟨hi', hsame⟩ | hnew
    · exact ih hi' (hsame ▸ hforks)
    · rw [hnew] at hforks
      cases hforks

/-! ## 2. Constants -/

section

variable {R : Program → Program → Prop} [IsPreorder Program R]
  (hR : ∀ p q id v, p.fold? id = some v → p.foldAway id v = .ok q → R p q)

include hR

theorem foldRound_keeps (hq : p.foldRound ids = .ok (q, m)) :
    R p q := by
  induction ids generalizing p m with
  | nil =>
    cases hq
    exact refl_of R _
  | cons id ids ih =>
    unfold Program.foldRound at hq
    split at hq
    · exact ih hq
    · rename_i v hv
      obtain ⟨p₁, haway, hq⟩ := except_bind_ok.mp hq
      obtain ⟨⟨p₂, k⟩, hrest, hq⟩ := except_bind_ok.mp hq
      cases hq
      exact trans_of R (hR p p₁ id v hv haway) (ih hrest)

theorem foldConstants_keeps (hq : p.foldConstants c = .ok (q, m)) : R p q := by
  unfold foldConstants at hq
  generalize (p.instrsOf c).length + 1 = fuel at hq
  induction fuel generalizing p m with
  | zero =>
    cases hq
    exact refl_of R _
  | succ fuel ih =>
    unfold Program.foldRounds at hq
    obtain ⟨⟨p₁, k⟩, hround, hq⟩ := except_bind_ok.mp hq
    have hone := foldRound_keeps hR hround
    dsimp only at hq
    split at hq
    · cases hq
      exact hone
    · obtain ⟨⟨p₂, l⟩, hrest, hq⟩ := except_bind_ok.mp hq
      cases hq
      exact trans_of R hone (ih hrest)

end

theorem foldAway_tweaks {v : Value} (hid : p.functionOf? id = some c)
    (hv : p.fold? id = some v) (hq : p.foldAway id v = .ok q) : Tweaks e c p q := by
  obtain ⟨-, rfl⟩ := eraseInstr_ok.mp hq
  obtain ⟨-, hcall, -, hvalue⟩ := fold?_cases hv
  refine (Tweak.replace hid (Instr.isCall_eq_false.mpr hcall) ?_).tweaks.tail (.drop ?_)
  · rcases hvalue with ⟨bits, n, rfl⟩ | hmem
    · exact .inl rfl
    · exact .inr (.inl hmem)
  · exact (((sameFrame_replaceUses ..).places fun _ => rfl).functionOf id).trans hid

theorem foldRounds_tweaks (hp : p.Sound) (hq : foldRounds c fuel p = .ok (q, m)) :
    Tweaks e c p q := by
  refine (foldRounds_carries (P := fun q => q.Sound ∧ Tweaks e c p q) (fun q hq => hq.1)
    (fun q r id v hq hid hv hr => ?_) ⟨hp, .refl p⟩ hq).2
  have hone : Tweaks e c q r := foldAway_tweaks hid hv hr
  exact ⟨(hone.spares hq.1).1, hq.2.trans hone⟩

theorem instrsOf_dropInstr (hp : p.Sound) (hid : p.functionOf? id = some c) :
    ((p.dropInstr id).instrsOf c).Perm ((p.instrsOf c).erase id) := by
  have hlive := hp.live_of_functionOf hid
  have hq := (evolves_dropInstr hlive hp).1
  have hnodup := hp.nodup_instrsOf c
  refine (List.perm_ext_iff_of_nodup (hq.nodup_instrsOf c) (hnodup.erase id)).mpr fun i => ?_
  rw [hq.mem_instrsOf, hnodup.mem_erase_iff, hp.mem_instrsOf]
  by_cases hi : i = id
  · rw [hi, not_functionOf_dropInstr (instr_lt_of_live hlive)]
    simp
  · rw [functionOf_dropInstr (Ne.symm hi)]
    simp [hi]

theorem foldRound_counts {n : Nat} (hp : p.Sound)
    (hids : ∀ i ∈ ids, Inside c p i) (hq : p.foldRound ids = .ok (q, n)) :
    (q.instrsOf c).length + n = (p.instrsOf c).length ∧
      (n = 0 → q = p ∧ ∀ i ∈ ids, p.fold? i = none) := by
  induction ids generalizing p n with
  | nil =>
    cases hq
    exact ⟨rfl, fun _ => ⟨rfl, nofun⟩⟩
  | cons id ids ih =>
    have hrest : ∀ i ∈ ids, Inside c p i := fun i hi => hids i (List.mem_cons_of_mem _ hi)
    unfold Program.foldRound at hq
    split at hq
    · rename_i hnone
      obtain ⟨hlength, hzero⟩ := ih hp hrest hq
      refine ⟨hlength, fun hn => ⟨(hzero hn).1, fun i hi => ?_⟩⟩
      rcases List.mem_cons.mp hi with rfl | hi
      · exact hnone
      · exact (hzero hn).2 i hi
    rename_i v hv
    obtain ⟨p₁, h₁, hq⟩ := except_bind_ok.mp hq
    obtain ⟨⟨p₂, m⟩, h₂, hq⟩ := except_bind_ok.mp hq
    cases hq
    have hid : p.functionOf? id = some c := by
      refine (hids id List.mem_cons_self).2.resolve_left ?_
      rw [live_of_fold? hv]
      exact Bool.false_ne_true
    have hone : Tweaks false c p p₁ := foldAway_tweaks hid hv h₁
    obtain ⟨hlength, -⟩ := ih (hone.spares hp).1 (fun i hi => hone.inside hp (hrest i hi)) h₂
    refine ⟨?_, nofun⟩
    obtain ⟨-, rfl⟩ := foldAway_ok.mp h₁
    have hreplaced := (sameFrame_replaceUses p (.instr id) v)
    have hin : (p.replaceUses (.instr id) v).functionOf? id = some c :=
      ((hreplaced.places fun _ => rfl).functionOf id).trans hid
    have hless := (instrsOf_dropInstr (hreplaced.evolves hp).1 hin).length_eq
    have hmem : id ∈ (p.replaceUses (.instr id) v).instrsOf c :=
      (hreplaced.evolves hp).1.mem_instrsOf.mpr hin
    rw [List.length_erase_of_mem hmem] at hless
    have hsame : (p.replaceUses (.instr id) v).instrsOf c = p.instrsOf c := rfl
    have hpos := List.length_pos_of_mem hmem
    rw [hsame] at hless hpos
    omega

theorem foldRounds_fixed (hp : p.Sound) (hfuel : (p.instrsOf c).length < fuel)
    (hq : foldRounds c fuel p = .ok (q, m)) : ∀ i ∈ q.instrsOf c, q.fold? i = none := by
  induction fuel generalizing p m with
  | zero => exact absurd hfuel (Nat.not_lt_zero _)
  | succ fuel ih =>
    unfold Program.foldRounds at hq
    obtain ⟨⟨p₁, n⟩, h₁, hq⟩ := except_bind_ok.mp hq
    obtain ⟨hlength, hzero⟩ := foldRound_counts hp hp.inside h₁
    dsimp only at hq
    split at hq
    · rename_i hn
      cases hq
      obtain ⟨rfl, hnone⟩ := hzero hn
      exact hnone
    · rename_i hn
      obtain ⟨⟨p₂, k⟩, h₂, hq⟩ := except_bind_ok.mp hq
      cases hq
      have hp₁ : p₁.Sound := foldRound_carries (fun _ hr => hr)
        (fun _ _ _ _ hr hid _ haway => (foldAway_spares hr hid haway).1) hp hp.inside h₁
      exact ih hp₁ (by omega) h₂

/-! ## 3. What is scheduled goes -/

theorem deleteInstr_tweaks (hid : Inside c p id) (hcall : (p.instr id).isCall = false)
    (hq : p.deleteInstr id = .ok q) : Tweaks e c p q ∧ (q.instr id).erased = true := by
  unfold Program.deleteInstr at hq
  dsimp only at hq
  obtain ⟨hlive, rfl⟩ := eraseInstr_ok.mp hq
  refine ⟨?_, by rw [instr_dropInstr_self (instr_lt_of_live hlive)]⟩
  split at hlive
  · rename_i huses
    have hsame := ((sameFrame_replaceUses p (.instr id) (.undef (p.instr id).ty)).instr id).2
    rw [hsame] at hlive
    have hin := hid.2.resolve_left (by rw [hlive]; exact Bool.false_ne_true)
    rw [if_pos huses]
    refine (Tweak.replace hin hcall (.inl rfl)).tweaks.tail (.drop ?_)
    exact (((sameFrame_replaceUses ..).places fun _ => rfl).functionOf id).trans hin
  · rename_i huses
    rw [if_neg huses]
    exact (Tweak.drop (hid.2.resolve_left (by rw [hlive]; exact Bool.false_ne_true))).tweaks

theorem replaceEach_tweaks (hp : p.Sound)
    (hrs : ∀ r ∈ rs, r.new = none ∧ Inside c p r.old ∧ (p.instr r.old).isCall = false)
    (hq : replaceEach rs p = .ok m q) :
    Tweaks e c p q ∧ ∀ r ∈ rs, (q.instr r.old).erased = true := by
  induction rs generalizing p m with
  | nil =>
    cases hq
    exact ⟨.refl _, nofun⟩
  | cons r rs ih =>
    obtain ⟨hnew, hinside, hcall⟩ := hrs r List.mem_cons_self
    have hrest : ∀ x ∈ rs, x.new = none ∧ Inside c p x.old ∧ (p.instr x.old).isCall = false :=
      fun x hx => hrs x (List.mem_cons_of_mem _ hx)
    unfold Program.replaceEach at hq
    obtain ⟨_, _, h₁, hq⟩ := bind_ok hq
    obtain ⟨rfl, rfl⟩ := get_ok h₁
    -- what is gone stays gone while the others go
    have hall : ∀ {p₁ k}, Tweaks e c p p₁ → (p₁.instr r.old).erased = true →
        replaceEach rs p₁ = .ok k q →
        Tweaks e c p q ∧ ∀ x ∈ r :: rs, (q.instr x.old).erased = true := by
      intro p₁ k hone hgone hq
      have hp₁ := (hone.spares hp).1
      obtain ⟨hmore, hgone'⟩ := ih hp₁ (fun x hx => by
        obtain ⟨hnone, hin, hplain⟩ := hrest x hx
        exact ⟨hnone, hone.inside hp hin, (hone.isCall hp hin.1).trans hplain⟩) hq
      refine ⟨hone.trans hmore, fun x hx => ?_⟩
      rcases List.mem_cons.mp hx with rfl | hx
      · exact (hmore.spares hp₁).2.buries.erasedInstr _ (hone.inside hp hinside).1 hgone
      · exact hgone' x hx
    split at hq
    · exact hall (.refl p) ‹_› hq
    · obtain ⟨_, p₁, h₂, hq⟩ := bind_ok hq
      obtain ⟨k, p₂, h₃, hq⟩ := bind_ok hq
      obtain ⟨-, rfl⟩ := pure_ok hq
      have hone := attempt_ok.mp h₂
      unfold replaceOne at hone
      rw [hnew] at hone
      obtain ⟨htweaks, hgone⟩ := deleteInstr_tweaks hinside hcall hone
      exact hall htweaks hgone h₃

theorem carryOut_tweaks (hp : p.Sound)
    (hrs : ∀ r ∈ rs, r.new = none ∧ Inside c p r.old ∧ (p.instr r.old).isCall = false)
    (hq : carryOut rs p = .ok m q) :
    Tweaks e c p q ∧ ∀ r ∈ rs, (q.instr r.old).erased = true := by
  unfold QirProfile.carryOut at hq
  cases hrepeated : firstRepeated? [] (rs.map (·.old)) with
  | some id =>
    rw [hrepeated] at hq
    cases hq
  | none =>
    rw [hrepeated] at hq
    obtain ⟨htweaks, hgone⟩ := replaceEach_tweaks hp
      (fun r hr => hrs r (List.mem_reverse.mp hr)) (compileEdit_ok.mp hq)
    exact ⟨htweaks, fun r hr => hgone r (List.mem_reverse.mpr hr)⟩

end Program

/-! ## 4. Rules -/

theorem Pattern.length_of_matchAll? {qs : List Pattern} {vs : List Value}
    {c c' : Captures} (h : matchAll? p qs vs c = some c') : vs.length = qs.length := by
  induction qs generalizing vs c with
  | nil => rw [(matchAll?_nil.mp h).1, List.length_nil, List.length_nil]
  | cons q qs ih =>
    obtain ⟨v, vs, d, rfl, -, h⟩ := matchAll?_cons.mp h
    rw [List.length_cons, List.length_cons, ih h]

namespace Pattern

theorem branch_captures {e : InstrId}
    (h : (branch (constInt.as "cond") (block.as "if_false") (block.as "if_true")).match? p (.instr e)
      [] = some captures) : (p.instr e).kind = .br ∧ ∃ bits n no yes,
        (p.instr e).operands = [.int bits n, .block no, .block yes] ∧
          captures.int? "cond" = some n ∧ captures.block? "if_true" = some yes ∧
            captures.block? "if_false" = some no := by
  refine ⟨(branch_matched (fun q hq => ?_) h).1, ?_⟩
  · simp only [List.mem_cons, List.not_mem_nil, or_false] at hq
    rcases hq with rfl | rfl | rfl <;> rfl
  obtain ⟨-, hall⟩ := (match?_inner (List.cons_ne_nil _ _)).mp h
  obtain ⟨cond, vs, c₁, hoperands, h₁, hall⟩ := matchAll?_cons.mp hall
  obtain ⟨no, vs, c₂, rfl, h₂, hall⟩ := matchAll?_cons.mp hall
  obtain ⟨yes, vs, c₃, rfl, h₃, hall⟩ := matchAll?_cons.mp hall
  obtain ⟨rfl, rfl⟩ := matchAll?_nil.mp hall
  obtain ⟨hcond, rfl⟩ := match?_leaf.mp h₁
  obtain ⟨hno, rfl⟩ := match?_leaf.mp h₂
  obtain ⟨hyes, rfl⟩ := match?_leaf.mp h₃
  obtain ⟨bits, n, rfl⟩ : ∃ bits n, cond = .int bits n := by
    cases cond <;> cases hcond
    exact ⟨_, _, rfl⟩
  obtain ⟨no, rfl⟩ : ∃ b, no = .block b := by
    cases no <;> cases hno
    exact ⟨_, rfl⟩
  obtain ⟨yes, rfl⟩ : ∃ b, yes = .block b := by
    cases yes <;> cases hyes
    exact ⟨_, rfl⟩
  refine ⟨bits, n, no, yes, hoperands, ?_, ?_, ?_⟩
  · simp [Captures.int?, Captures.lookup_insert, Value.toInt?]
  · simp [Captures.block?, Captures.lookup_insert, Value.toBlock?]
  · simp [Captures.block?, Captures.lookup_insert, Value.toBlock?]

theorem branch_matches {e : InstrId} {bits : Nat} {n : Int} {no yes : BlockId}
    (hlive : (p.instr e).erased = false) (hkind : (p.instr e).kind = .br)
    (hoperands : (p.instr e).operands = [.int bits n, .block no, .block yes]) :
    ∃ captures, (branch (constInt.as "cond") (block.as "if_false") (block.as "if_true")).match? p
      (.instr e) [] = some captures := by
  have hshape : Shape.branch.test p (.instr e) = true := by
    simp [Shape.test, Program.liveKind?, Value.toInstr?, hlive, hkind]
  have hall : ∃ captures, matchAll? p [constInt.as "cond", block.as "if_false", block.as "if_true"]
      [.int bits n, .block no, .block yes] [] = some captures :=
    ⟨_, matchAll?_cons.mpr ⟨_, _, _, rfl, match?_leaf.mpr ⟨rfl, rfl⟩,
      matchAll?_cons.mpr ⟨_, _, _, rfl, match?_leaf.mpr ⟨rfl, rfl⟩,
        matchAll?_cons.mpr ⟨_, _, _, rfl, match?_leaf.mpr ⟨rfl, rfl⟩, matchAll?_nil.mpr ⟨rfl, rfl⟩⟩⟩⟩⟩
  obtain ⟨captures, hall⟩ := hall
  refine ⟨captures, (match?_inner (List.cons_ne_nil _ _)).mpr ⟨hshape, ?_⟩⟩
  change matchAll? p _ (p.instr e).operands [] = some captures
  rw [hoperands]
  exact hall

end Pattern

namespace Replacing

open Program

variable {e : Bool} {c : FuncId} {id : InstrId} {s s' : RuleState Unit} {captures : Captures}
  {b : Bool}

/-- A fork of the function has been settled, and is scheduled to go. A new branch closes its block. -/
structure Settled (e : Bool) (c : FuncId) (id : InstrId) (s s' : RuleState Unit) : Prop where
  inside : s.program.functionOf? id = some c
  forks : (s.program.instr id).forks = true
  tweaks : Tweaks e c s.program s'.program
  relieves : Relieves id s.program s'.program
  scheduled : s'.scheduled = s.scheduled ++ [⟨id, none⟩]

theorem Cut.tweaks {dropped : BlockId} (h : Cut dropped p q) :
    Tweaks e c p q ∧ ∀ b, (q.block b).instrs = (p.block b).instrs := by
  rcases h with rfl | ⟨source, hcut⟩
  · exact ⟨.refl _, fun _ => rfl⟩
  · exact ⟨cutEdge_keeps (fun p id => (Tweak.forget id source).tweaks) hcut,
      fun b => congrArg Block.instrs ((cutEdge_ok hcut).2.2 b)⟩

theorem settleBranch_settles {cond ifFalse ifTrue : Pattern}
    (hleaves : ∀ q ∈ [cond, ifFalse, ifTrue], q.children = [])
    (hmatch : (Pattern.branch cond ifFalse ifTrue).match? s.program (.instr id) [] = some captures)
    (hid : s.program.functionOf? id = some c) (h : settleBranch id captures s = .ok b s') :
    b = false ∧ s' = s ∨ b = true ∧ Settled e c id s s' := by
  obtain ⟨hkind, htarget⟩ := Pattern.branch_matched hleaves hmatch
  have hforks : (s.program.instr id).forks = true := by
    have hall := ((Pattern.match?_inner (List.cons_ne_nil _ _)).mp hmatch).2
    rw [Instr.forks, hkind]
    exact beq_iff_eq.mpr (Pattern.length_of_matchAll? hall)
  rcases settleBranch_ok h with ⟨rfl, rfl, -⟩ |
    ⟨rfl, taken, dropped, new, p, q, htaken, hinsert, hcut, rfl⟩
  · exact .inl ⟨rfl, rfl⟩
  have hp : Tweaks e c s.program p := (Tweak.insert (d := draftBr taken) hid
    (fun v hv => List.mem_singleton.mp hv ▸ htaken.elim (htarget _ _) (htarget _ _)) rfl (.inl rfl)
    hinsert).tweaks
  obtain ⟨_, _, _, hins⟩ := insert_before_ok hinsert
  obtain ⟨hq, hblock⟩ := hcut.tweaks
  exact .inr ⟨rfl, hid, hforks, hp.trans hq, (hins.relieves rfl).followed hq.sameEnds hblock, rfl⟩

theorem invokeToCall_settles (hkind : (s.program.instr id).kind = .invoke)
    (hid : s.program.functionOf? id = some c) (h : invokeToCall id captures s = .ok b s') :
    b = false ∧ s' = s ∧ ((s.program.instr id).calledFunction? = none ∨
      (s.program.instr id).invokeDestinations? = none) ∨
    b = true ∧ Settled true c id s s' := by
  have hforks : (s.program.instr id).forks = true := by rw [Instr.forks, hkind]
  rcases invokeToCall_ok h with hno |
    ⟨rfl, callee, normal, unwind, call, new, p₁, p₂, q, hcallee, hdest, hone, htwo, hcut, rfl⟩
  · exact .inl hno
  have hcall : Tweak true c s.program p₁ := by
    refine .insert hid (fun v hv => ?_) rfl (.inr rfl) hone
    rcases List.mem_append.mp hv with hv | hv
    · exact mem_of_arguments hv
    · rw [List.mem_singleton.mp hv]
      exact Instr.mem_of_calledFunction? hcallee
  obtain ⟨b₁, front, back, hins⟩ := insert_before_ok hone
  have hlt : id.index < s.program.instrs.size := by
    obtain ⟨b, hb, -⟩ := Option.bind_eq_some_iff.mp hid
    exact instr_lt_of_parent hb
  have hne := hins.ne_new hlt
  have hid₁ : p₁.functionOf? id = some c := (hins.functionOf hne).trans hid
  have hbr : Tweak true c p₁ p₂ := by
    refine .insert hid₁ (fun v hv => ?_) rfl (.inl rfl) htwo
    rw [hins.instr id hne, List.mem_singleton.mp hv]
    exact mem_of_invokeDestinations? hdest
  obtain ⟨b₂, front', back', hins'⟩ := insert_before_ok htwo
  -- both stand in the function, before and after the name is handed on
  have hplaces := (sameFrame_takeName p₂ id call).places fun _ => rfl
  have hid₃ : (p₂.takeName id call).functionOf? id = some c := by
    rw [hplaces.functionOf, hins'.functionOf, hid₁]
    exact hins'.ne_new (Nat.lt_of_lt_of_le hlt (by rw [hins.instrs]; omega))
  have hcall₃ : (p₂.takeName id call).functionOf? call = some c := by
    rw [hplaces.functionOf, hins'.functionOf,
      hins.functionOf_new (parent_of_anchored hins hid)]
    exact hins'.ne_new (by rw [hins.instrs, hins.fresh]; exact Nat.lt_succ_self _)
  have hname : Tweak true c p₂ (p₂.takeName id call) := .name id call
  have hplain : ((p₂.takeName id call).instr id).isCall = false := by
    have hlt₁ : id.index < p₁.instrs.size := by
      rw [hins.instrs]
      exact Nat.lt_succ_of_lt hlt
    have hlt₂ : id.index < p₂.instrs.size := by
      rw [hins'.instrs]
      exact Nat.lt_succ_of_lt hlt₁
    rw [hname.isCall hlt₂, hbr.isCall hlt₁, hcall.isCall hlt, Instr.isCall, hkind]
  have hturn : Tweak true c (p₂.takeName id call)
      ((p₂.takeName id call).replaceUses (.instr id) (.instr call)) :=
    .replace hid₃ hplain (.inr (.inr ⟨call, rfl, hcall₃⟩))
  have hall := ((hcall.tweaks.tail hbr).tail hname).tail hturn
  have hrelief := hins.before_relief ((hins'.relieves rfl).followed
    (trans_of SameEnds hname.sameEnds hturn.sameEnds) fun _ => rfl) hlt
  obtain ⟨hq, hblock⟩ := hcut.tweaks
  exact .inr ⟨rfl, hid, hforks, hall.trans hq, hrelief.followed hq.sameEnds hblock, rfl⟩

theorem offer_settles {r : Rule Unit} {f : Replacer Unit} (hf : r.replacer = some f)
    (hrun : ∀ b s', f id captures s = .ok b s' →
      b = false ∧ s' = s ∨ b = true ∧ Settled e c id s s')
    (h : offer r id captures s = .ok b s') :
    b = false ∧ s' = s ∧ f id captures s = .ok false s ∨ b = true ∧ Settled e c id s s' :=
  (offer_of_tame (P := Settled e c id s) (fun _ b s₁ hg hone =>
    hrun b s₁ (Option.some.inj (hf.symm.trans hg) ▸ hone)) h).imp_left fun ⟨hb, hsame, hno⟩ =>
      ⟨hb, hsame, hno f hf⟩

theorem invoke_match? (hlive : (p.instr id).erased = false)
    (hkind : (p.instr id).kind = .invoke) : Pattern.invoke.match? p (.instr id) [] = some [] := by
  refine Pattern.match?_leaf.mpr ⟨?_, rfl⟩
  simp [Shape.test, liveKind?, Value.toInstr?, hlive, hkind]

/-- An invoke that is not lowered calls nothing by name, or does not say where it goes on. -/
def Lowered (i : Instr) : Prop :=
  i.kind = .invoke → i.calledFunction? = none ∨ i.invokeDestinations? = none

/-- An instruction that the rules leave as it is: no branch on a constant and, where exceptions are
    ruled out, no invoke that can be lowered. -/
structure AtRest (lowers : Bool) (i : Instr) : Prop where
  branch : i.kind = .br → ∀ bits n no yes, i.operands ≠ [.int bits n, .block no, .block yes]
  invoke : lowers = true → Lowered i

theorem lowerInvokes_settles (hid : s.program.functionOf? id = some c)
    (hlive : (s.program.instr id).erased = false)
    (h : firstAccepting id (if e then [.of .invoke invokeToCall] else []) s = .ok b s') :
    s' = s ∧ (e = true → Lowered (s.program.instr id)) ∨ Settled e c id s s' := by
  cases e with
  | false =>
    obtain ⟨-, rfl⟩ := pure_ok h
    exact .inl ⟨rfl, nofun⟩
  | true =>
    rcases firstAccepting_cons h with ⟨hnone, h⟩ | ⟨captures, hmatch, h⟩
    · obtain ⟨-, rfl⟩ := pure_ok h
      refine .inl ⟨rfl, fun _ hkind => ?_⟩
      change Pattern.invoke.match? s.program (.instr id) [] = none at hnone
      rw [invoke_match? hlive hkind] at hnone
      cases hnone
    · have hkind := invoke_matched hmatch
      have hrun : ∀ b s', invokeToCall id captures s = .ok b s' →
          b = false ∧ s' = s ∨ b = true ∧ Settled true c id s s' := fun b s' hone =>
        (invokeToCall_settles hkind hid hone).imp_left fun ⟨hb, hsame, _⟩ => ⟨hb, hsame⟩
      rcases h with ⟨hoffer, -⟩ | ⟨s₁, hoffer, hrest⟩
      · rcases offer_settles rfl hrun hoffer with ⟨hno, -⟩ | ⟨-, hsettled⟩
        · cases hno
        · exact .inr hsettled
      · rcases offer_settles rfl hrun hoffer with ⟨-, rfl, hone⟩ | ⟨hno, -⟩
        · obtain ⟨-, rfl⟩ := pure_ok hrest
          rcases invokeToCall_settles hkind hid hone with ⟨-, -, hlow⟩ | ⟨hno, -⟩
          · exact .inl ⟨rfl, fun _ _ => hlow⟩
          · cases hno
        · cases hno

theorem applyFirst_settles (hp : s.program.Sound) (hid : Inside c s.program id)
    (h : applyFirst (controlFlowRules e) id s = .ok b s') :
    s' = s ∧ (s.program.functionOf? id = some c → AtRest e (s.program.instr id)) ∨
      Settled e c id s s' := by
  unfold applyFirst at h
  obtain ⟨_, _, hprogram, h⟩ := bind_ok h
  cases hprogram
  split at h
  · rename_i hgone
    obtain ⟨-, rfl⟩ := pure_ok h
    refine .inl ⟨rfl, fun hin => ?_⟩
    rw [hp.live_of_functionOf hin] at hgone
    cases hgone
  rename_i hlive
  rw [Bool.not_eq_true] at hlive
  have hin := hid.2.resolve_left (by rw [hlive]; exact Bool.false_ne_true)
  unfold controlFlowRules at h
  rcases firstAccepting_cons h with ⟨hnone, h⟩ | ⟨captures, hmatch, h⟩
  · refine (lowerInvokes_settles hin hlive h).imp_left fun ⟨hsame, hlow⟩ => ⟨hsame, fun _ =>
      ⟨fun hkind bits n no yes hoperands => ?_, hlow⟩⟩
    obtain ⟨captures, hmatch⟩ := Pattern.branch_matches hlive hkind hoperands
    exact Option.some_ne_none captures (hmatch.symm.trans hnone)
  have hleaves : ∀ q ∈ [Pattern.constInt.as "cond", Pattern.block.as "if_false",
      Pattern.block.as "if_true"], q.children = [] := by
    intro q hq
    simp only [List.mem_cons, List.not_mem_nil, or_false] at hq
    rcases hq with rfl | rfl | rfl <;> rfl
  have hrun : ∀ b u, settleBranch id captures s = .ok b u →
      b = false ∧ u = s ∨ b = true ∧ Settled e c id s u := fun _ _ h =>
    settleBranch_settles hleaves hmatch hin h
  rcases h with ⟨hoffer, -⟩ | ⟨s₁, hoffer, -⟩
  · rcases offer_settles rfl hrun hoffer with ⟨hno, -⟩ | ⟨-, hsettled⟩
    · cases hno
    · exact .inr hsettled
  · -- what the pattern has recorded is all that the replacer asks for
    obtain ⟨-, bits, n, no, yes, -, hcond, htrue, hfalse⟩ := Pattern.branch_captures hmatch
    rcases offer_settles rfl hrun hoffer with ⟨-, -, hone⟩ | ⟨hno, -⟩
    · obtain ⟨-, -, hmissing⟩ := (settleBranch_ok hone).resolve_right fun hno => Bool.false_ne_true hno.1
      simp [hcond, htrue, hfalse] at hmissing
    · cases hno

/-- What trying the rules on instructions of a function leads to: forks are scheduled to go, and if
    there are none, nothing has changed. -/
structure Scheduled (e : Bool) (c : FuncId) (ids : List InstrId) (p : Program)
    (rs : List Replacement) (q : Program) : Prop where
  tweaks : Tweaks e c p q
  forks : ∀ r ∈ rs, r.new = none ∧ p.functionOf? r.old = some c ∧ (p.instr r.old).forks = true
  none : rs = [] → q = p ∧ ∀ id ∈ ids, p.functionOf? id = some c → AtRest e (p.instr id)

theorem applyAll_scheduled {u : PUnit} (hp : s.program.Sound)
    (hids : ∀ i ∈ ids, Inside c s.program i)
    (h : (ids.forM fun id => discard (applyFirst (controlFlowRules e) id)) s = .ok u s') :
    ∃ rs, s'.scheduled = s.scheduled ++ rs ∧ Scheduled e c ids s.program rs s'.program := by
  induction ids generalizing s with
  | nil =>
    obtain ⟨-, rfl⟩ := pure_ok h
    exact ⟨[], (List.append_nil _).symm, .refl _, nofun, fun _ => ⟨rfl, nofun⟩⟩
  | cons id ids ih =>
    have hrest : ∀ i ∈ ids, Inside c s.program i := fun i hi => hids i (List.mem_cons_of_mem _ hi)
    obtain ⟨_, s₁, happly, hmore⟩ := bind_ok h
    obtain ⟨b, happly⟩ := discard_ok happly
    rcases applyFirst_settles hp (hids id List.mem_cons_self) happly with
      ⟨rfl, hrests⟩ | hsettled
    · obtain ⟨rs, hscheduled, hall⟩ := ih hp hrest hmore
      refine ⟨rs, hscheduled, hall.tweaks, hall.forks, fun hnone => ?_⟩
      obtain ⟨hsame, hothers⟩ := hall.none hnone
      refine ⟨hsame, fun i hi => ?_⟩
      rcases List.mem_cons.mp hi with rfl | hi
      · exact hrests
      · exact hothers i hi
    · have htweaks := hsettled.tweaks
      obtain ⟨rs, hscheduled, hall⟩ := ih (htweaks.spares hp).1
        (fun i hi => htweaks.inside hp (hrest i hi)) hmore
      refine ⟨⟨id, none⟩ :: rs, ?_, htweaks.trans hall.tweaks, fun r hr => ?_, nofun⟩
      · rw [hscheduled, hsettled.scheduled, List.append_assoc]
        rfl
      · rcases List.mem_cons.mp hr with rfl | hr
        · exact ⟨rfl, hsettled.inside, hsettled.forks⟩
        · obtain ⟨hnew, hin, hforks⟩ := hall.forks r hr
          exact ⟨hnew, htweaks.forks_back hin hforks⟩

end Replacing

/-! ## 5. Rounds -/

namespace Program

variable {e : Bool} {p q : Program} {c : FuncId}

theorem scheduleAll_scheduled (hp : p.Sound)
    (h : scheduleAll (Replacing.controlFlowRules e) (p.instrsOf c) p = .ok rs q) :
    Replacing.Scheduled e c (p.instrsOf c) p rs q := by
  unfold scheduleAll at h
  dsimp only at h
  split at h
  · rename_i s hall
    cases h
    obtain ⟨rs, hscheduled, hrs⟩ := Replacing.applyAll_scheduled (c := c) (s := ⟨p, [], ()⟩) hp
      hp.inside hall
    rw [List.nil_append] at hscheduled
    rw [hscheduled]
    exact hrs
  · cases h

theorem carryOut_scheduled {p₁ : Program}
    (hp : p.Sound) (h : Replacing.Scheduled e c ids p rs p₁) (hcarry : carryOut rs p₁ = .ok m q) :
    Tweaks e c p₁ q ∧ ∀ r ∈ rs, (q.instr r.old).erased = true :=
  carryOut_tweaks (h.tweaks.spares hp).1 (fun r hr => by
    obtain ⟨hnew, hin, hfork⟩ := h.forks r hr
    have hinside := inside_of_functionOf hp hin
    exact ⟨hnew, h.tweaks.inside hp hinside,
      (h.tweaks.isCall hp hinside.1).trans (Instr.isCall_of_forks hfork)⟩) hcarry

/-- One round is a row of tweaks. -/
theorem round_tweaks {p₁ : Program} (hp : p.Sound)
    (hschedule : scheduleAll (Replacing.controlFlowRules e) (p.instrsOf c) p = .ok rs p₁)
    (hcarry : carryOut rs p₁ = .ok m q) :
    Tweaks e c p q ∧ ∀ r ∈ rs, (q.instr r.old).erased = true := by
  have hscheduled := scheduleAll_scheduled hp hschedule
  obtain ⟨htweaks, hgone⟩ := carryOut_scheduled hp hscheduled hcarry
  exact ⟨hscheduled.tweaks.trans htweaks, hgone⟩

theorem rounds_tweaks {forks : List InstrId} (hp : p.Sound)
    (hforks : ∀ i, p.functionOf? i = some c → (p.instr i).forks = true → i ∈ forks)
    (hfuel : forks.length < fuel)
    (hq : QirProfile.foldRounds (Replacing.controlFlowRules e) c fuel p = .ok m q) :
    Tweaks e c p q ∧ ∀ i, q.functionOf? i = some c →
      q.fold? i = none ∧ Replacing.AtRest e (q.instr i) := by
  induction fuel generalizing forks p m with
  | zero => exact absurd hfuel (Nat.not_lt_zero _)
  | succ fuel ih =>
    unfold QirProfile.foldRounds at hq
    obtain ⟨folded, p₁, hfold, hq⟩ := bind_ok hq
    have hconstants : p.foldConstants c = .ok (p₁, folded) := by
      have hmake := compileEdit_ok.mp hfold
      unfold Edit.tryMake at hmake
      split at hmake
      · rename_i hrounds
        cases hmake
        exact hrounds
      · cases hmake
    have h₁ : Tweaks e c p p₁ := foldRounds_tweaks hp hconstants
    have hp₁ := (h₁.spares hp).1
    obtain ⟨_, _, hget, hq⟩ := bind_ok hq
    cases hget
    obtain ⟨rs, p₂, hschedule, hq⟩ := bind_ok hq
    have hscheduled := scheduleAll_scheduled hp₁ hschedule
    split at hq
    · rename_i hnone
      obtain ⟨-, rfl⟩ := pure_ok hq
      obtain ⟨rfl, hrests⟩ := hscheduled.none (List.isEmpty_iff.mp hnone)
      refine ⟨h₁, fun i hi => ?_⟩
      have hmem := hp₁.mem_instrsOf.mpr hi
      exact ⟨foldRounds_fixed hp (Nat.lt_succ_self _) hconstants i hmem, hrests i hmem hi⟩
    · rename_i hsome
      obtain ⟨removed, p₃, hcarry, hq⟩ := bind_ok hq
      obtain ⟨k, p₄, hrounds, hq⟩ := bind_ok hq
      obtain ⟨-, rfl⟩ := pure_ok hq
      obtain ⟨htweaks, hgone⟩ := round_tweaks hp₁ hschedule hcarry
      have h₃ := h₁.trans htweaks
      have hp₃ := (h₃.spares hp).1
      -- one fork at least has gone
      obtain ⟨r, hr⟩ := List.exists_mem_of_ne_nil rs fun hnil => hsome (hnil ▸ rfl)
      obtain ⟨-, hin, hfork⟩ := hscheduled.forks r hr
      obtain ⟨hin', hfork'⟩ := h₁.forks_back hin hfork
      have hmem := hforks r.old hin' hfork'
      have hleft : ∀ i, p₃.functionOf? i = some c → (p₃.instr i).forks = true →
          i ∈ forks.erase r.old := by
        intro i hi hforks'
        obtain ⟨hi', hold⟩ := h₃.forks_back hi hforks'
        refine (List.mem_erase_of_ne ?_).mpr (hforks i hi' hold)
        rintro rfl
        have hlive := hp₃.live_of_functionOf hi
        rw [hgone r hr] at hlive
        cases hlive
      have hless : (forks.erase r.old).length < fuel := by
        rw [List.length_erase_of_mem hmem]
        have := List.length_pos_of_mem hmem
        omega
      obtain ⟨hall, hrests⟩ := ih hp₃ hleft hless hrounds
      exact ⟨h₃.trans hall, hrests⟩

/-- Folding a function is a row of tweaks. -/
theorem foldControlFlow_tweaks (hp : p.Sound)
    (h : foldControlFlow (Replacing.controlFlowRules e) c p = .ok m q) :
    Tweaks e c p q := by
  unfold foldControlFlow at h
  obtain ⟨_, _, hget, h⟩ := bind_ok h
  cases hget
  have hforks : ∀ i, p.functionOf? i = some c → (p.instr i).forks = true → i ∈ p.instrsOf c :=
    fun i hi _ => hp.mem_instrsOf.mpr hi
  exact (rounds_tweaks hp hforks (Nat.lt_succ_self _) h).1

end Program

end QirProfile
