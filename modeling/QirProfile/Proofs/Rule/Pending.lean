import QirProfile.Proofs.ControlFlow
import QirProfile.Proofs.Program.Edits
import QirProfile.Proofs.Program.Linked

/-!
# Programs with a schedule

Rules change a program before their schedule is carried out: instructions refer to pointers that are
to take the place of others and stand in no block yet. `AtWork names rs p` is what holds of a program
with the schedule `rs` all the time: it is linked but for these guests, blocks are in order, and
nothing that ends a block is scheduled.
-/

namespace QirProfile

variable {r : Replacement} {i new anchor : InstrId} {f : FuncId} {names : List String}
  {rs : List Replacement} {p q : Program}

/-! ## 1. Schedules -/

namespace InstrKind

/-- Instructions of this kind may give way to others: they end no block, are no phi, and are no
    pointer to a number. -/
def Replaceable (k : InstrKind) : Prop :=
  k.isTerminator = false ∧ (∀ blocks, k ≠ .phi blocks) ∧ k ≠ .cast .inttoptr

end InstrKind

namespace Program

variable {names : List String} {rs : List Replacement} {p q : Program} {id : InstrId}

/-- The instructions that are to come into a function: each takes the place of one there. -/
def guests (p : Program) (rs : List Replacement) (i : InstrId) (f : FuncId) : Prop :=
  ∃ r ∈ rs, r.new = some i ∧ p.functionOf? r.old = some f

/-- A pointer to an address that is given as a number. -/
def IsAddress (p : Program) (i : InstrId) : Prop :=
  (p.instr i).kind = .cast .inttoptr ∧ ∃ bits n, (p.instr i).operands = [.int bits n]

/-- Invokes have their two destinations, and call no function of these names. -/
def Calm (names : List String) (p : Program) : Prop :=
  ∀ i, (p.instr i).erased = false → (p.instr i).kind = .invoke →
    (p.instr i).invokeDestinations?.isSome = true ∧
      ∀ f, (p.instr i).calledFunction? = some f → (p.func f).name ∉ names

/-- What holds of a program while rules are at work. -/
structure AtWork (names : List String) (rs : List Replacement) (p : Program) : Prop where
  linked : Linked (guests p rs) p
  order : p.InOrder
  calm : Calm names p
  olds : ∀ r ∈ rs, (p.instr r.old).kind.Replaceable
  news : ∀ r ∈ rs, ∀ i, r.new = some i → p.IsAddress i

theorem AtWork.start (hp : p.Sound) (hv : p.Verified) (hcalm : Calm names p) :
    AtWork names [] p where
  linked := (hv.linked hp).welcome nofun
  order := hv.inOrder
  calm := hcalm
  olds := nofun
  news := nofun

theorem AtWork.verified (h : AtWork names [] p) : p.Verified := by
  refine Linked.verified (h.linked.welcome fun i f hG => ?_) h.order
  obtain ⟨r, hr, -⟩ := hG
  cases hr

theorem AtWork.not_guest (h : AtWork names rs p) (hid : (p.instr id).kind.Replaceable) (f : FuncId) :
    ¬ guests p rs id f := by
  rintro ⟨r, hr, hnew, -⟩
  exact hid.2.2 (h.news r hr id hnew).1

theorem AtWork.reorder {rs' : List Replacement} (h : AtWork names rs p)
    (hsame : ∀ r, r ∈ rs' ↔ r ∈ rs) : AtWork names rs' p where
  linked := h.linked.welcome fun _ _ ⟨r, hr, hi⟩ => .inr ⟨r, (hsame r).mpr hr, hi⟩
  order := h.order
  calm := h.calm
  olds r hr := h.olds r ((hsame r).mp hr)
  news r hr := h.news r ((hsame r).mp hr)

theorem AtWork.schedule (h : AtWork names rs p)
    (hold : (p.instr r.old).kind.Replaceable) (hnew : ∀ i, r.new = some i → p.IsAddress i) :
    AtWork names (rs ++ [r]) p where
  linked := h.linked.welcome fun _ _ ⟨x, hx, hi⟩ => .inr ⟨x, List.mem_append_left _ hx, hi⟩
  order := h.order
  calm := h.calm
  olds x hx := by
    rcases List.mem_append.mp hx with hx | hx
    · exact h.olds x hx
    · rw [List.mem_singleton.mp hx]
      exact hold
  news x hx := by
    rcases List.mem_append.mp hx with hx | hx
    · exact h.news x hx
    · rw [List.mem_singleton.mp hx]
      exact hnew

/-! ## 2. Changes of operands and names -/

theorem guests_of_places (hs : p.SamePlaces q) (i : InstrId) (f : FuncId) :
    guests q rs i f ↔ guests p rs i f := by
  unfold guests
  simp only [hs.functionOf]

theorem inOrder_rework (h : p.InOrder) (hs : p.SameFrame q) (hfunc : ∀ f, q.func f = p.func f)
    (hkind : ∀ i, (q.instr i).kind = (p.instr i).kind) : q.InOrder := by
  intro f hf b hb
  rw [hfunc] at hf hb
  rw [(hs.block b).2.1]
  refine (h f hf b hb).congr fun i _ => ?_
  unfold Instr.isTerminator Instr.isPhi
  rw [hkind]
  exact ⟨rfl, rfl⟩

theorem AtWork.replaceUses {v : Value} (h : AtWork names rs p) (hblock : v.toBlock? = none)
    (hfunc : v.toFunc? = none) (hfits : ∀ f, (p.func f).erased = false →
      Refers (guests p rs) p f (.instr id) → Refers (guests p rs) p f v) :
    AtWork names rs (p.replaceUses (.instr id) v) := by
  have hframe := sameFrame_replaceUses p (.instr id) v
  have hplaces := hframe.places fun _ => rfl
  have hmap : ∀ i, ∃ g : Value → Value, (∀ w, (g w).toBlock? = w.toBlock?) ∧
      (∀ w, (g w).toFunc? = w.toFunc?) ∧
      ((p.replaceUses (.instr id) v).instr i).operands = (p.instr i).operands.map g := by
    intro i
    rw [instr_replaceUses]
    split
    · exact ⟨_, Value.toBlock?_substitute rfl hblock, Value.toFunc?_substitute rfl hfunc, rfl⟩
    · exact ⟨fun w => w, fun _ => rfl, fun _ => rfl, (List.map_id' _).symm⟩
  refine ⟨(h.linked.replaceUses hfits).welcome fun i f hG => .inr ((guests_of_places hplaces i f).mpr hG),
    inOrder_rework h.order hframe (fun _ => rfl) (kind_replaceUses p _ _), fun i hi hinvoke => ?_,
    fun r hr => ?_, fun r hr i hi => ?_⟩
  · obtain ⟨g, hgblock, hgfunc, hoperands⟩ := hmap i
    have hkind := kind_replaceUses p (.instr id) v i
    rw [Instr.invokeDestinations?_map hkind hoperands hgblock,
      Instr.calledFunction?_map hkind hoperands hgfunc]
    exact h.calm i ((hframe.instr i).2.symm.trans hi) (hkind.symm.trans hinvoke)
  · rw [kind_replaceUses]
    exact h.olds r hr
  · obtain ⟨hkind, bits, n, hoperands⟩ := h.news r hr i hi
    refine ⟨(kind_replaceUses ..).trans hkind, bits, n, ?_⟩
    rw [instr_replaceUses]
    split
    · simp [hoperands, Value.substitute]
    · exact hoperands

theorem AtWork.setInstrName (h : AtWork names rs p) (id : InstrId) (name : Option String) :
    AtWork names rs (p.setInstrName id name) := by
  have hframe := sameFrame_setInstrName p id name
  have hplaces := hframe.places fun _ => rfl
  have hsame : ∀ i, ((p.setInstrName id name).instr i).kind = (p.instr i).kind ∧
      ((p.setInstrName id name).instr i).operands = (p.instr i).operands := by
    intro i
    obtain ⟨n, hn⟩ := instr_setInstrName p id name i
    rw [hn]
    exact ⟨rfl, rfl⟩
  refine ⟨(h.linked.setInstrName id name).welcome
    fun i f hG => .inr ((guests_of_places hplaces i f).mpr hG),
    inOrder_rework h.order hframe (fun _ => rfl) fun i => (hsame i).1, fun i hi hinvoke => ?_,
    fun r hr => (hsame r.old).1 ▸ h.olds r hr, fun r hr i hi => ?_⟩
  · obtain ⟨n, hn⟩ := instr_setInstrName p id name i
    rw [hn] at hi hinvoke ⊢
    exact h.calm i hi hinvoke
  · rw [IsAddress, (hsame i).1, (hsame i).2]
    exact h.news r hr i hi

theorem AtWork.takeName (h : AtWork names rs p) (source target : InstrId) :
    AtWork names rs (p.takeName source target) :=
  (h.setInstrName source none).setInstrName target _

/-! ## 3. New nodes -/

theorem instr_createInstr_new (p : Program) (kind : InstrKind) (ty : Ty) (operands : List Value) :
    (p.createInstr kind ty operands).1.instr ⟨p.instrs.size⟩ =
      { kind := kind, ty := ty, operands := operands } := by
  rw [createInstr, instr_push, if_pos rfl]

theorem instr_createInstr_ne (kind : InstrKind) (ty : Ty) (operands : List Value)
    (hi : i ≠ ⟨p.instrs.size⟩) : (p.createInstr kind ty operands).1.instr i = p.instr i := by
  rw [createInstr, instr_push, if_neg]
  exact fun he => hi (by cases i; exact congrArg InstrId.mk he)

theorem lt_of_replaceable (h : (p.instr id).kind.Replaceable) : id.index < p.instrs.size := by
  by_contra hge
  rw [instr_of_le (Nat.not_lt.mp hge)] at h
  cases h.1

theorem IsAddress.lt (h : p.IsAddress id) : id.index < p.instrs.size := by
  by_contra hge
  obtain ⟨hkind, -⟩ := h
  rw [instr_of_le (Nat.not_lt.mp hge)] at hkind
  cases hkind

theorem ne_fresh (h : id.index < p.instrs.size) : id ≠ ⟨p.instrs.size⟩ := by
  rintro rfl
  exact Nat.lt_irrefl _ h

theorem AtWork.createInstr (h : AtWork names rs p) {kind : InstrKind} (ty : Ty)
    (operands : List Value) (hkind : kind ≠ .invoke) :
    AtWork names rs (p.createInstr kind ty operands).1 := by
  have hnew := instr_createInstr_new p kind ty operands
  have hold : ∀ i, i ≠ ⟨p.instrs.size⟩ → (p.createInstr kind ty operands).1.instr i = p.instr i :=
    fun i => instr_createInstr_ne kind ty operands
  have hfunctionOf : ∀ i, (p.createInstr kind ty operands).1.functionOf? i = p.functionOf? i := by
    intro i
    by_cases hi : i = ⟨p.instrs.size⟩
    · have hgone : p.instr ⟨p.instrs.size⟩ = .tombstone := instr_of_le (Nat.le_refl _)
      rw [hi, functionOf?, functionOf?, hnew, hgone]
      rfl
    · rw [functionOf?, functionOf?, hold i hi]
      rfl
  have hstands : ∀ {i f}, p.functionOf? i = some f → i ≠ ⟨p.instrs.size⟩ := fun hi =>
    ne_fresh (instr_lt_of_live (h.linked.sound.live_of_functionOf hi))
  refine ⟨h.linked.grow (evolves_createInstr p kind ty operands h.linked.sound).1
      (fun i f hi => ?_) (fun _ _ hb => hb) (fun _ hk => hk) (fun f i hf hi => ?_),
    fun f hf b hb => ?_, fun i hi hinvoke => ?_, fun r hr => ?_, fun r hr i hi => ?_⟩
  · rw [hfunctionOf]
    refine hi.imp_right ?_
    rintro ⟨r, hr, hri, hrf⟩
    exact ⟨r, hr, hri, (hfunctionOf r.old).trans hrf⟩
  · rw [hfunctionOf] at hi
    rw [hold i (hstands hi)]
    exact .inl ⟨hf, hi, rfl, rfl⟩
  · refine (h.order f hf b hb).congr fun i hi => ?_
    rw [hold i (ne_fresh (instr_lt_of_live (h.linked.sound.instr_live hi)))]
    exact ⟨rfl, rfl⟩
  · by_cases hne : i = ⟨p.instrs.size⟩
    · subst hne
      rw [hnew] at hinvoke
      exact absurd hinvoke hkind
    · rw [hold i hne] at hi hinvoke ⊢
      exact h.calm i hi hinvoke
  · rw [hold _ (ne_fresh (lt_of_replaceable (h.olds r hr)))]
    exact h.olds r hr
  · rw [IsAddress, hold i (ne_fresh (h.news r hr i hi).lt)]
    exact h.news r hr i hi

theorem AtWork.promise (h : AtWork names rs p) (hid : (p.instr id).kind.Replaceable) (ty : Ty)
    (bits : Nat) (address : Int) :
    AtWork names (rs ++ [⟨id, some ⟨p.instrs.size⟩⟩])
      (p.createInstr (.cast .inttoptr) ty [.ofInt bits address]).1 := by
  have hcreated : AtWork names rs (p.createInstr (.cast .inttoptr) ty [.ofInt bits address]).1 :=
    h.createInstr ty _ nofun
  refine hcreated.schedule ?_ fun i hi => ?_
  · rw [instr_createInstr_ne _ _ _ (ne_fresh (lt_of_replaceable hid))]
    exact hid
  · cases hi
    rw [IsAddress, instr_createInstr_new]
    exact ⟨rfl, _, _, rfl⟩

theorem AtWork.handOver (h : AtWork names rs p) (hr : ⟨id, some new⟩ ∈ rs) :
    AtWork names rs (p.replaceUses (.instr id) (.instr new)) := by
  refine h.replaceUses rfl rfl ?_
  rintro f - (hin | hguest)
  · exact Or.inr ⟨_, hr, rfl, hin⟩
  · exact absurd hguest (h.not_guest (h.olds _ hr) f)

theorem AtWork.ensureFunction (h : AtWork names rs p) {name : String} (sig : Signature)
    (hname : name ∉ names) :
    AtWork names rs (p.ensureFunction name sig).1 ∧
      ((p.ensureFunction name sig).1.func (p.ensureFunction name sig).2).erased = false ∧
      (∀ i, (p.ensureFunction name sig).1.instr i = p.instr i) ∧
      ∀ i, (p.ensureFunction name sig).1.functionOf? i = p.functionOf? i := by
  have hp := h.linked.sound
  unfold Program.ensureFunction
  cases hfound : p.findFunction? name with
  | some f =>
    exact ⟨h, ((hp.index name f).mp hfound).1, fun _ => rfl, fun _ => rfl⟩
  | none =>
    have hdeclared : (Func.declare name sig []).blocks = [] ∧
        (Func.declare name sig []).name = name := ⟨rfl, rfl⟩
    have hq : (p.pushFunction (Func.declare name sig [])).1.Sound :=
      (evolves_pushFunction hdeclared.1 (fun f hf => findFunction?_none hfound hf) hp).1
    have hfunc : ∀ f, (p.pushFunction (Func.declare name sig [])).1.func f =
        if f.index = p.functions.size then Func.declare name sig [] else p.func f :=
      fun f => func_push p _ f
    have hlive : ∀ f, (p.func f).erased = false →
        (p.pushFunction (Func.declare name sig [])).1.func f = p.func f := by
      intro f hf
      rw [hfunc, if_neg (Nat.ne_of_lt (func_lt_of_live hf))]
    have hbody : ∀ f b, b ∈ ((p.pushFunction (Func.declare name sig [])).1.func f).blocks →
        (p.pushFunction (Func.declare name sig [])).1.func f = p.func f := by
      intro f b hb
      rw [hfunc] at hb ⊢
      split at hb
      · cases hb
      · rename_i hne
        rw [if_neg hne]
    refine ⟨⟨h.linked.grow hq (fun i f hi => hi) (fun _ _ hb => hb)
        (fun k hk => by rw [hlive k hk]; exact hk) (fun f i hf hi => .inl ?_),
      fun f hf b hb => ?_, fun i hi hinvoke => ?_, h.olds, h.news⟩, ?_, fun _ => rfl,
      fun _ => rfl⟩
    · obtain ⟨b, -, hparent⟩ := Option.bind_eq_some_iff.mp hi
      rw [hbody f b (hq.mem_blocks.mpr hparent)] at hf
      exact ⟨hf, hi, rfl, rfl⟩
    · rw [hbody f b hb] at hf hb
      exact (h.order f hf b hb).congr fun i _ => ⟨rfl, rfl⟩
    · obtain ⟨hdestinations, hcallee⟩ := h.calm i hi hinvoke
      refine ⟨hdestinations, fun f hf => ?_⟩
      rw [hfunc]
      split
      · exact hname
      · exact hcallee f hf
    · exact congrArg Func.erased ((hfunc ⟨p.functions.size⟩).trans (if_pos rfl))

/-! ## 4. Instructions that are put in their places -/

/-- `q` is `p` with the detached instruction `new` beside `anchor` in its block. -/
structure Placed (p q : Program) (anchor new : InstrId) (b : BlockId) (front back : List InstrId) :
    Prop where
  sound : q.Sound
  live : (p.instr new).erased = false
  detached : (p.instr new).parent = none
  anchored : (p.instr anchor).parent = some b
  func : ∀ f, q.func f = p.func f
  parent : ∀ c, (q.block c).parent = (p.block c).parent
  before : (p.block b).instrs = front ++ back
  beside : (∃ rest, back = anchor :: rest) ∨ ∃ rest, front = rest ++ [anchor]
  after : (q.block b).instrs = front ++ new :: back
  others : ∀ c, c ≠ b → (q.block c).instrs = (p.block c).instrs
  made : q.instr new = { p.instr new with parent := some b }
  instr : ∀ i, i ≠ new → q.instr i = p.instr i
  size : q.instrs.size = p.instrs.size

theorem insertBeside_placed {offset : Nat} (hp : p.Sound)
    (hoffset : offset ≤ 1) (h : p.insertBeside anchor new offset = .ok q) :
    ∃ b front back, Placed p q anchor new b front back := by
  have hq := (evolves_insertBeside hoffset h hp).1
  obtain ⟨⟨hlive, hdetached⟩, b, n, hpos, rfl⟩ := insertBeside_ok.mp h
  obtain ⟨-, hparent, hidx⟩ := positionOf_ok.mp hpos
  obtain ⟨front, back, hbefore, hbeside, hafter⟩ : ∃ front back,
      (p.block b).instrs = front ++ back ∧
      ((∃ rest, back = anchor :: rest) ∨ ∃ rest, front = rest ++ [anchor]) ∧
      (p.block b).instrs.insertIdx (n + offset) new = front ++ new :: back := by
    obtain ⟨front, back, hl, hbefore, hafter⟩ := insertIdx_idxOf? hidx new
    rcases Nat.le_one_iff_eq_zero_or_eq_one.mp hoffset with rfl | rfl
    · exact ⟨front, anchor :: back, hl, .inl ⟨back, rfl⟩, hbefore⟩
    · exact ⟨front ++ [anchor], back, by rw [hl]; simp, .inr ⟨front, rfl⟩, by rw [hafter]; simp⟩
  have hblock := block_updateBlock_self (block_lt_of_mem (hp.mem_instrs.mpr hparent))
    fun bb => { bb with instrs := bb.instrs.insertIdx (n + offset) new }
  refine ⟨b, front, back, hq, hlive, hdetached, hparent, fun _ => rfl, fun c => ?_, hbefore, hbeside,
    ?_, fun c hc => ?_, ?_, fun i hi => ?_, ?_⟩
  · by_cases hc : b = c
    · subst hc
      rw [Program.attach, block_updateInstr, hblock]
    · rw [Program.attach, block_updateInstr, block_updateBlock_ne hc]
  · rw [Program.attach, block_updateInstr, hblock]
    exact hafter
  · rw [Program.attach, block_updateInstr, block_updateBlock_ne hc.symm]
  · rw [Program.attach, instr_updateInstr_self, instr_updateBlock]
    exact instr_lt_of_live hlive
  · rw [Program.attach, instr_updateInstr_ne hi.symm, instr_updateBlock]
  · simp [Program.attach, updateInstr, updateBlock]

section

variable {anchor new : InstrId} {b : BlockId} {front back : List InstrId}

namespace Placed

variable (h : Placed p q anchor new b front back)

include h

theorem functionOf {i : InstrId} (hi : i ≠ new) : q.functionOf? i = p.functionOf? i := by
  unfold functionOf?
  rw [h.instr i hi]
  cases (p.instr i).parent with
  | none => rfl
  | some c => exact h.parent c

theorem anchor_ne : anchor ≠ new := by
  rintro rfl
  have hanchored := h.anchored
  rw [h.detached] at hanchored
  cases hanchored

theorem functionOf_new : q.functionOf? new = p.functionOf? anchor := by
  rw [functionOf?, functionOf?, h.made, h.anchored]
  exact h.parent b

theorem functionOf_anchor : q.functionOf? anchor = p.functionOf? anchor :=
  h.functionOf h.anchor_ne

theorem functionOf_of (hi : p.functionOf? i = some f) :
    q.functionOf? i = some f := by
  rw [h.functionOf]
  · exact hi
  · rintro rfl
    rw [functionOf?, h.detached] at hi
    cases hi

theorem kind (i : InstrId) : (q.instr i).kind = (p.instr i).kind := by
  by_cases hi : i = new
  · rw [hi, h.made]
  · rw [h.instr i hi]

theorem operands (i : InstrId) : (q.instr i).operands = (p.instr i).operands := by
  by_cases hi : i = new
  · rw [hi, h.made]
  · rw [h.instr i hi]

theorem guests (hi : Program.guests p rs i f) :
    Program.guests q rs i f := by
  obtain ⟨r, hr, hnew, hold⟩ := hi
  exact ⟨r, hr, hnew, h.functionOf_of hold⟩

theorem refers {v : Value} (hv : Refers (Program.guests p rs) p f v) :
    Refers (Program.guests q rs) q f v :=
  hv.transport v (fun _ _ hi => hi.imp h.functionOf_of h.guests) (fun c _ hc => (h.parent c).trans hc)
    fun k _ hk => by rw [h.func]; exact hk

theorem ordered (horder : p.Ordered (p.block b).instrs) (hanchor : (p.instr anchor).kind.Replaceable)
    (hterm : (p.instr new).isTerminator = false) (hphi : (p.instr new).isPhi = false) :
    q.Ordered (q.block b).instrs := by
  have hanchorPhi : (p.instr anchor).isPhi = false := by
    refine Bool.eq_false_iff.mpr fun hphi => ?_
    obtain ⟨blocks, hkind⟩ := Instr.isPhi_iff.mp hphi
    exact hanchor.2.1 blocks hkind
  rw [h.before] at horder
  have hnew : new ∉ front ++ back := by
    rw [← h.before]
    intro hmem
    have hsame := h.after
    have hnodup := h.sound.nodup_instrs b
    rw [h.before] at hmem
    rw [hsame] at hnodup
    exact (List.nodup_middle.mp hnodup).notMem hmem
  have hold : ∀ i ∈ front ++ back, q.instr i = p.instr i :=
    fun i hi => h.instr i fun heq => hnew (heq ▸ hi)
  have hterm' : (q.instr new).isTerminator = false := by
    rw [Instr.isTerminator, h.kind]
    exact hterm
  have hphi' : (q.instr new).isPhi = false := by
    rw [h.made]
    exact hphi
  rw [h.after]
  rcases h.beside with ⟨rest, rfl⟩ | ⟨rest, rfl⟩
  · exact horder.insert hold hterm' hphi' hanchorPhi
  · -- the block does not end here, and no phi follows
    cases back with
    | nil =>
      obtain ⟨last, hlast, hends⟩ := horder.ends
      rw [List.append_nil, List.getLast?_concat, Option.some_inj] at hlast
      rw [← hlast, Instr.isTerminator, hanchor.1] at hends
      cases hends
    | cons next back =>
      refine horder.insert hold hterm' hphi' (Bool.eq_false_iff.mpr fun hnext => ?_)
      obtain ⟨-, -, hacross⟩ := List.pairwise_append.mp horder.phisFirst
      have := hacross anchor (List.mem_append_right _ (List.mem_singleton_self _)) next
        List.mem_cons_self hnext
      rw [hanchorPhi] at this
      cases this

end Placed

theorem AtWork.place (h : AtWork names rs p) (hplaced : Placed p q anchor new b front back)
    (hanchor : (p.instr anchor).kind.Replaceable) (hterm : (p.instr new).isTerminator = false)
    (hphi : (p.instr new).isPhi = false)
    (hoperands : ∀ f, (p.func f).erased = false → p.functionOf? anchor = some f →
      ∀ v ∈ (p.instr new).operands, Refers (guests p rs) p f v) : AtWork names rs q := by
  refine ⟨h.linked.grow hplaced.sound (fun i f hi => hi.imp hplaced.functionOf_of hplaced.guests)
      (fun c f hc => (hplaced.parent c).trans hc) (fun k hk => by rw [hplaced.func]; exact hk)
      (fun f i hf hi => ?_),
    fun f hf c hc => ?_, fun i hi hinvoke => ?_, fun r hr => ?_, fun r hr i hi => ?_⟩
  · rw [hplaced.func] at hf
    by_cases hnew : i = new
    · subst hnew
      rw [hplaced.functionOf_new] at hi
      refine .inr ⟨by rw [hplaced.made]; exact hphi, fun v hv => hplaced.refers ?_⟩
      rw [hplaced.operands] at hv
      exact hoperands f hf hi v hv
    · rw [hplaced.functionOf hnew] at hi
      exact .inl ⟨hf, hi, hplaced.kind i, hplaced.operands i⟩
  · rw [hplaced.func] at hf hc
    by_cases hcb : c = b
    · subst hcb
      exact hplaced.ordered (h.order f hf c hc) hanchor hterm hphi
    · rw [hplaced.others c hcb]
      refine (h.order f hf c hc).congr fun i hi => ?_
      rw [hplaced.instr]
      · exact ⟨rfl, rfl⟩
      · rintro rfl
        rw [h.linked.sound.mem_instrs, hplaced.detached] at hi
        cases hi
  · rw [hplaced.kind] at hinvoke
    have hne : i ≠ new := by
      rintro rfl
      rw [Instr.isTerminator, hinvoke] at hterm
      cases hterm
    rw [hplaced.instr i hne] at hi ⊢
    obtain ⟨hdestinations, hcallee⟩ := h.calm i hi hinvoke
    exact ⟨hdestinations, fun f hf => by rw [hplaced.func]; exact hcallee f hf⟩
  · rw [hplaced.kind]
    exact h.olds r hr
  · rw [IsAddress, hplaced.kind, hplaced.operands]
    exact h.news r hr i hi

end

/-- A new instruction stands in the function of another one, and those that were there are the
    same. -/
structure Beside (p q : Program) (anchor new : InstrId) : Prop where
  size : p.instrs.size < q.instrs.size
  instr : ∀ i, i.index < p.instrs.size → q.instr i = p.instr i
  functionOf : ∀ i, i.index < p.instrs.size → q.functionOf? i = p.functionOf? i
  new : q.functionOf? new = p.functionOf? anchor

theorem AtWork.insert {place : Place} {anchor new : InstrId} {d : Edit.Draft}
    (h : AtWork names rs p) (hplace : place = .before anchor ∨ place = .after anchor)
    (hanchor : (p.instr anchor).kind.Replaceable) (hdraft : d.kind.Replaceable)
    (hoperands : ∀ f, (p.func f).erased = false → p.functionOf? anchor = some f →
      ∀ v ∈ d.operands, Refers (guests p rs) p f v)
    (hq : Edit.insert place d p = .ok new q) :
    AtWork names rs q ∧ p.Beside q anchor new := by
  obtain ⟨offset, hoffset, rfl, hinsert⟩ : ∃ offset ≤ 1, new = ⟨p.instrs.size⟩ ∧
      (p.drafted d).insertBeside anchor ⟨p.instrs.size⟩ offset = .ok q := by
    rcases hplace with hplace | hplace
    · exact ⟨0, Nat.zero_le 1, insert_beside_eq (.inl ⟨hplace, rfl⟩) hq⟩
    · exact ⟨1, Nat.le_refl 1, insert_beside_eq (.inr ⟨hplace, rfl⟩) hq⟩
  have hnew := instr_drafted_new p d
  have hinvoke : d.kind ≠ .invoke := by
    intro hkind
    have hterm := hdraft.1
    rw [hkind] at hterm
    cases hterm
  have hwork : AtWork names rs (p.drafted d) :=
    (h.createInstr d.ty d.operands hinvoke).setInstrName _ _
  have hold : ∀ i, i.index < p.instrs.size → (p.drafted d).instr i = p.instr i :=
    fun i hi => instr_drafted_ne d (ne_fresh hi)
  have hfunctionOf : ∀ i, i.index < p.instrs.size →
      (p.drafted d).functionOf? i = p.functionOf? i := by
    intro i hi
    rw [functionOf?, functionOf?, hold i hi]
    rfl
  have hguests : ∀ {i f}, guests p rs i f → guests (p.drafted d) rs i f := by
    rintro i f ⟨r, hr, hi, hf⟩
    refine ⟨r, hr, hi, ?_⟩
    rw [hfunctionOf _ (lt_of_replaceable (h.olds r hr))]
    exact hf
  obtain ⟨b, front, back, hplaced⟩ := insertBeside_placed hwork.linked.sound hoffset hinsert
  have hanchorLt := lt_of_replaceable hanchor
  have hsize : (p.drafted d).instrs.size = p.instrs.size + 1 := by
    simp [drafted, Program.createInstr, Program.setInstrName, updateInstr]
  refine ⟨hwork.place hplaced (by rw [hold anchor hanchorLt]; exact hanchor) ?_ ?_ ?_,
    ⟨?_, fun i hi => ?_, fun i hi => ?_, ?_⟩⟩
  · rw [hnew]
    exact hdraft.1
  · refine Bool.eq_false_iff.mpr fun hphi => ?_
    rw [hnew] at hphi
    obtain ⟨blocks, hkind⟩ := Instr.isPhi_iff.mp hphi
    exact hdraft.2.1 blocks hkind
  · intro f hf hanchorIn v hv
    rw [hfunctionOf anchor hanchorLt] at hanchorIn
    rw [hnew] at hv
    refine (hoperands f hf hanchorIn v hv).transport v (fun i _ hi => hi.imp (fun hin => ?_) hguests)
      (fun _ _ hb => hb) fun _ _ hk => hk
    rw [hfunctionOf i (instr_lt_of_live (h.linked.sound.live_of_functionOf hin))]
    exact hin
  · rw [hplaced.size, hsize]
    exact Nat.lt_succ_self _
  · rw [hplaced.instr i (ne_fresh hi), hold i hi]
  · rw [hplaced.functionOf (ne_fresh hi), hfunctionOf i hi]
  · rw [hplaced.functionOf_new, hfunctionOf anchor hanchorLt]

theorem AtWork.callBeside {place : Place} {name : String} {sig : Signature} {args : List Value}
    (h : AtWork names rs p) (hname : name ∉ names)
    (hplace : place = .before id ∨ place = .after id) (hid : (p.instr id).kind.Replaceable)
    (hargs : ∀ v ∈ args, v ∈ (p.instr id).operands ∨ ∃ i, v = .instr i ∧ ⟨id, some i⟩ ∈ rs)
    (hq : Edit.insert place ((p.ensureFunction name sig).1.draftCall
      (p.ensureFunction name sig).2 args none) (p.ensureFunction name sig).1 = .ok new q) :
    AtWork names rs q ∧ p.Beside q id new := by
  obtain ⟨hdeclared, hlive, hinstr, hfunctionOf⟩ := h.ensureFunction sig hname
  have hsize : (p.ensureFunction name sig).1.instrs.size = p.instrs.size := by
    unfold Program.ensureFunction
    split <;> rfl
  have hdraft : ((p.ensureFunction name sig).1.draftCall (p.ensureFunction name sig).2 args
      none).kind.Replaceable := ⟨rfl, nofun, nofun⟩
  have hoperands : ∀ g, ((p.ensureFunction name sig).1.func g).erased = false →
      (p.ensureFunction name sig).1.functionOf? id = some g →
      ∀ v ∈ args ++ [.func (p.ensureFunction name sig).2],
        Refers (guests (p.ensureFunction name sig).1 rs) (p.ensureFunction name sig).1 g v := by
    intro g hg hin v hv
    rcases List.mem_append.mp hv with hv | hv
    · rcases hargs v hv with hoperand | ⟨i, rfl, hr⟩
      · exact hdeclared.linked.operands g id hg hin v (by rw [hinstr]; exact hoperand)
      · exact Or.inr ⟨_, hr, rfl, hin⟩
    · obtain rfl := List.mem_singleton.mp hv
      exact hlive
  obtain ⟨hcalled, hbeside⟩ := hdeclared.insert hplace (by rw [hinstr]; exact hid) hdraft
    hoperands hq
  refine ⟨hcalled, hsize ▸ hbeside.size, fun i hi => ?_, fun i hi => ?_, ?_⟩
  · exact (hbeside.instr i (hsize.symm ▸ hi)).trans (hinstr i)
  · exact (hbeside.functionOf i (hsize.symm ▸ hi)).trans (hfunctionOf i)
  · exact hbeside.new.trans (hfunctionOf id)

/-! ## 5. Carrying out -/

theorem AtWork.dropInstr (h : AtWork names rs p) (hlive : (p.instr id).erased = false)
    (hid : (p.instr id).kind.Replaceable) (hunused : p.Unused (.instr id))
    (hother : ∀ r ∈ rs, r.old ≠ id) : AtWork names rs (p.dropInstr id) := by
  have hparts : ∀ i, ((p.dropInstr id).instr i).kind = (p.instr i).kind ∧
      ((p.dropInstr id).instr i).operands = (p.instr i).operands := by
    intro i
    by_cases hi : id = i
    · subst hi
      rw [instr_dropInstr_self (instr_lt_of_live hlive)]
      exact ⟨rfl, rfl⟩
    · rw [instr_dropInstr_ne hi]
      exact ⟨rfl, rfl⟩
  refine ⟨(h.linked.dropInstr hlive hunused).welcome fun i f ⟨r, hr, hi, hf⟩ => .inr ⟨r, hr, hi, ?_⟩,
    fun f hf b hb => ?_, fun i hi hinvoke => ?_, fun r hr => ?_, fun r hr i hi => ?_⟩
  · rw [functionOf_dropInstr (hother r hr).symm]
    exact hf
  · rw [func_dropInstr] at hf hb
    have hordered : p.Ordered ((p.dropInstr id).block b).instrs := by
      rw [block_dropInstr]
      split
      · refine (h.order f hf b hb).filter fun i _ hterm => bne_iff_ne.mpr ?_
        rintro rfl
        rw [Instr.isTerminator, hid.1] at hterm
        cases hterm
      · exact h.order f hf b hb
    refine hordered.congr fun i _ => ?_
    unfold Instr.isTerminator Instr.isPhi
    rw [(hparts i).1]
    exact ⟨rfl, rfl⟩
  · have hne : id ≠ i := by
      rintro rfl
      rw [(hparts id).1] at hinvoke
      have hterm := hid.1
      rw [hinvoke] at hterm
      cases hterm
    rw [instr_dropInstr_ne hne] at hi hinvoke ⊢
    obtain ⟨hdestinations, hcallee⟩ := h.calm i hi hinvoke
    exact ⟨hdestinations, fun f hf => by rw [func_dropInstr]; exact hcallee f hf⟩
  · rw [(hparts _).1]
    exact h.olds r hr
  · rw [IsAddress, (hparts i).1, (hparts i).2]
    exact h.news r hr i hi

theorem AtWork.forget (h : AtWork names (r :: rs) p)
    (hr : ∀ i f, r.new = some i → p.functionOf? r.old = some f → p.functionOf? i = some f) :
    AtWork names rs p where
  linked := h.linked.welcome fun i f ⟨x, hx, hi, hf⟩ => by
    rcases List.mem_cons.mp hx with rfl | hx
    · exact .inl (hr i f hi hf)
    · exact .inr ⟨x, hx, hi, hf⟩
  order := h.order
  calm := h.calm
  olds x hx := h.olds x (List.mem_cons_of_mem _ hx)
  news x hx := h.news x (List.mem_cons_of_mem _ hx)

theorem AtWork.deleteInstr (h : AtWork names rs p) (hid : (p.instr id).kind.Replaceable)
    (hother : ∀ r ∈ rs, r.old ≠ id) (hq : p.deleteInstr id = .ok q) : AtWork names rs q := by
  unfold Program.deleteInstr at hq
  obtain ⟨hlive, rfl⟩ := eraseInstr_ok.mp hq
  by_cases huses : p.hasUses (.instr id) = true
  · rw [if_pos huses] at hlive ⊢
    have hundefined : AtWork names rs (p.replaceUses (.instr id) (.undef (p.instr id).ty)) :=
      h.replaceUses rfl rfl fun _ _ _ => trivial
    refine hundefined.dropInstr hlive ?_ ?_ hother
    · rw [kind_replaceUses]
      exact hid
    · exact unused_replaceUses h.linked.sound rfl rfl
  · rw [if_neg huses] at hlive ⊢
    exact h.dropInstr hlive hid
      (unused_of_hasUses h.linked.sound (Bool.eq_false_iff.mpr huses)) hother

theorem AtWork.replaceInstr {old : InstrId} (h : AtWork names (⟨old, some new⟩ :: rs) p)
    (hother : ∀ r ∈ rs, r.old ≠ old) (hq : p.replaceInstr old new = .ok q) : AtWork names rs q := by
  have hold := h.olds _ List.mem_cons_self
  obtain ⟨hkind, bits, n, hoperands⟩ := h.news _ List.mem_cons_self new rfl
  obtain ⟨p₁, hinsert, herase⟩ := replaceInstr_ok.mp hq
  obtain ⟨b, front, back, hplaced⟩ := insertBeside_placed h.linked.sound (Nat.zero_le 1) hinsert
  have hterm : (p.instr new).isTerminator = false := by
    rw [Instr.isTerminator, hkind]
    rfl
  have hphi : (p.instr new).isPhi = false := by
    rw [Instr.isPhi, hkind]
  have hplace : AtWork names (⟨old, some new⟩ :: rs) p₁ := by
    refine h.place hplaced hold hterm hphi fun _ _ _ v hv => ?_
    rw [hoperands, List.mem_singleton] at hv
    subst hv
    trivial
  -- from here on the pointer stands in the function
  have hstands : AtWork names rs p₁ := hplace.forget fun i f hi hf => by
    cases hi
    rw [hplaced.functionOf_new, ← hplaced.functionOf_anchor]
    exact hf
  have hnamed := hstands.takeName old new
  have hold' : ((p₁.takeName old new).instr old).kind.Replaceable := by
    rw [kind_takeName, hplaced.kind]
    exact hold
  have hplaces := (sameFrame_takeName p₁ old new).places fun _ => rfl
  have hfits : ∀ f, ((p₁.takeName old new).func f).erased = false →
      Refers (guests (p₁.takeName old new) rs) (p₁.takeName old new) f (.instr old) →
      Refers (guests (p₁.takeName old new) rs) (p₁.takeName old new) f (.instr new) := by
    rintro f - (hin | hguest)
    · rw [hplaces.functionOf, hplaced.functionOf_anchor] at hin
      refine Or.inl ?_
      rw [hplaces.functionOf, hplaced.functionOf_new]
      exact hin
    · exact absurd hguest (hnamed.not_guest hold' f)
  obtain ⟨hlive, rfl⟩ := eraseInstr_ok.mp herase
  refine (hnamed.replaceUses rfl rfl hfits).dropInstr hlive ?_ ?_ hother
  · rw [kind_replaceUses]
    exact hold'
  · refine unused_replaceUses hnamed.linked.sound rfl ?_
    simpa [Value.mentions] using hplaced.anchor_ne.symm

theorem AtWork.carry (h : AtWork names (r :: rs) p)
    (hother : ∀ x ∈ rs, x.old ≠ r.old) (hq : p.replaceOne r = .ok q) : AtWork names rs q := by
  obtain ⟨old, new⟩ := r
  cases new with
  | none => exact (h.forget nofun).deleteInstr (h.olds _ List.mem_cons_self) hother hq
  | some new => exact h.replaceInstr hother hq

theorem AtWork.replaceEach {n : Nat} (h : AtWork names rs p) (hnodup : (rs.map (·.old)).Nodup)
    (hq : Program.replaceEach rs p = .ok n q) : AtWork names [] q := by
  induction rs generalizing p n with
  | nil =>
    obtain ⟨-, rfl⟩ := pure_ok hq
    exact h
  | cons r rest ih =>
    rw [List.map_cons, List.nodup_cons] at hnodup
    have hother : ∀ x ∈ rest, x.old ≠ r.old := fun x hx heq =>
      hnodup.1 (heq ▸ List.mem_map_of_mem hx)
    unfold Program.replaceEach at hq
    obtain ⟨_, _, hget, hq⟩ := bind_ok hq
    obtain ⟨rfl, rfl⟩ := get_ok hget
    split at hq
    · rename_i hgone
      refine ih (h.forget fun i f _ hf => ?_) hnodup.2 hq
      rw [h.linked.sound.live_of_functionOf hf] at hgone
      cases hgone
    · obtain ⟨_, p₁, hattempt, hq⟩ := bind_ok hq
      obtain ⟨m, p₂, hrest, hpure⟩ := bind_ok hq
      obtain ⟨-, rfl⟩ := pure_ok hpure
      exact ih (h.carry hother (attempt_ok.mp hattempt)) hnodup.2 hrest

end Program

theorem nodup_of_firstRepeated? {seen ids : List InstrId} (h : firstRepeated? seen ids = none) :
    ids.Nodup ∧ ∀ id ∈ ids, id ∉ seen := by
  induction ids generalizing seen with
  | nil => exact ⟨List.nodup_nil, nofun⟩
  | cons id rest ih =>
    unfold firstRepeated? at h
    split at h
    · cases h
    · rename_i hnew
      obtain ⟨hnodup, hseen⟩ := ih h
      refine ⟨List.nodup_cons.mpr ⟨fun hmem => hseen id hmem List.mem_cons_self, hnodup⟩, ?_⟩
      intro x hx
      rcases List.mem_cons.mp hx with rfl | hx
      · simpa using hnew
      · exact fun hmem => hseen x hx (List.mem_cons_of_mem _ hmem)

theorem firstRepeated?_eq_none {ids seen : List InstrId} (hnodup : ids.Nodup)
    (hseen : ∀ a ∈ ids, a ∉ seen) : firstRepeated? seen ids = none := by
  induction ids generalizing seen with
  | nil => rfl
  | cons a ids ih =>
    obtain ⟨hnot, hnodup⟩ := List.nodup_cons.mp hnodup
    have ha : seen.contains a = false := by
      rw [List.contains_eq_mem, decide_eq_false_iff_not]
      exact hseen a List.mem_cons_self
    rw [firstRepeated?, ha, if_neg Bool.false_ne_true]
    refine ih hnodup fun x hx hmem => ?_
    rcases List.mem_cons.mp hmem with rfl | hmem
    · exact hnot hx
    · exact hseen x (List.mem_cons_of_mem _ hx) hmem

/-- A schedule that is carried out leaves the program verified. -/
theorem Program.AtWork.carryOut {n : Nat}
    (h : AtWork names rs p) (hq : QirProfile.carryOut rs p = .ok n q) : q.Sound ∧ q.Verified := by
  unfold QirProfile.carryOut at hq
  cases hrepeated : firstRepeated? [] (rs.map (·.old)) with
  | some id =>
    rw [hrepeated] at hq
    cases hq
  | none =>
    rw [hrepeated] at hq
    have hnodup : (rs.reverse.map (·.old)).Nodup := by
      rw [List.map_reverse, List.nodup_reverse]
      exact (nodup_of_firstRepeated? hrepeated).1
    have hdone := (h.reorder fun r => List.mem_reverse).replaceEach hnodup (compileEdit_ok.mp hq)
    exact ⟨hdone.linked.sound, hdone.verified⟩

end QirProfile
