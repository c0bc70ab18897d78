import Mathlib.Data.List.Perm.Subperm
import QirProfile.ControlFlow
import QirProfile.Proofs.Program.Arena
import QirProfile.Proofs.Program.Uses
import QirProfile.Proofs.Verify

/-!
# Programs that only lose parts

Clean-up takes nodes away and leaves undefined values where they were used. `Shrinks p q` says that
`q` is `p` with parts taken away: no node is new, none moves, and no operand mentions a block that it
did not mention before. `Trims` adds that a sound program stays sound; each change that takes
something away trims. `Prunes fs bs` says where: all other functions stay, and all other blocks keep
their place and what they hold, but for phis; what is no phi keeps its type, and its operands but for those
that mention what has gone.
-/

namespace QirProfile.Program

variable {p q r : Program}
variable {id : InstrId} {b source : BlockId} {bs : List BlockId} {i : Instr} {f : FuncId}

/-! ## 1. Shrinking -/

/-- Parts of the first program are gone in the second one, and nothing else has changed but operands
    and names. -/
structure Shrinks (p q : Program) : Prop where
  func : ∀ f, q.func f =
    { p.func f with blocks := (q.func f).blocks, erased := (q.func f).erased }
  blocks : ∀ f, (q.func f).blocks.Sublist (p.func f).blocks
  erasedFunc : ∀ f, (p.func f).erased = true → (q.func f).erased = true
  instrs : ∀ b, (q.block b).instrs.Sublist (p.block b).instrs
  parent : ∀ i b, (q.instr i).parent = some b → (p.instr i).parent = some b
  live : ∀ i, (q.instr i).erased = false → (p.instr i).erased = false
  phi : ∀ i, (q.instr i).isPhi = (p.instr i).isPhi
  kind : ∀ i, (p.instr i).isPhi = false → (q.instr i).kind = (p.instr i).kind
  uses : ∀ i b, (q.instr i).uses (.block b) = true → (p.instr i).uses (.block b) = true
  globals : ∀ g b, (q.global g).uses (.block b) = true → (p.global g).uses (.block b) = true

theorem Shrinks.refl (p : Program) : p.Shrinks p where
  func _ := rfl
  blocks _ := List.Sublist.refl _
  erasedFunc _ h := h
  instrs _ := List.Sublist.refl _
  parent _ _ h := h
  live _ h := h
  phi _ := rfl
  kind _ _ := rfl
  uses _ _ h := h
  globals _ _ h := h

theorem Shrinks.trans (h₁ : p.Shrinks q) (h₂ : q.Shrinks r) : p.Shrinks r where
  func f := by rw [h₂.func f, h₁.func f]
  blocks f := (h₂.blocks f).trans (h₁.blocks f)
  erasedFunc f h := h₂.erasedFunc f (h₁.erasedFunc f h)
  instrs b := (h₂.instrs b).trans (h₁.instrs b)
  parent i b h := h₁.parent i b (h₂.parent i b h)
  live i h := h₁.live i (h₂.live i h)
  phi i := (h₂.phi i).trans (h₁.phi i)
  kind i h := (h₂.kind i ((h₁.phi i).trans h)).trans (h₁.kind i h)
  uses i b h := h₁.uses i b (h₂.uses i b h)
  globals g b h := h₁.globals g b (h₂.globals g b h)

theorem Shrinks.erased (h : p.Shrinks q) (i : InstrId) (hi : (p.instr i).erased = true) :
    (q.instr i).erased = true := by
  cases herased : (q.instr i).erased with
  | true => rfl
  | false => exact (h.live i herased).symm.trans hi

/-- A sound program that shrinks stays sound. -/
def Trims (p q : Program) : Prop :=
  p.Sound → q.Sound ∧ p.Shrinks q

instance : IsPreorder Program Trims where
  refl p h := ⟨h, .refl p⟩
  trans _ _ _ h₁ h₂ h := by
    obtain ⟨hq, hpq⟩ := h₁ h
    obtain ⟨hr, hqr⟩ := h₂ hq
    exact ⟨hr, hpq.trans hqr⟩

theorem Trims.of_evolves (h : p.Evolves q) (hs : p.Shrinks q) : p.Trims q :=
  fun hp => ⟨(h hp).1, hs⟩

theorem shrinks_of_instrs (hfunc : ∀ f, q.func f = p.func f) (hblock : ∀ b, q.block b = p.block b)
    (hparent : ∀ i, (q.instr i).parent = (p.instr i).parent)
    (herased : ∀ i, (q.instr i).erased = (p.instr i).erased)
    (hphi : ∀ i, (q.instr i).isPhi = (p.instr i).isPhi)
    (hkind : ∀ i, (p.instr i).isPhi = false → (q.instr i).kind = (p.instr i).kind)
    (huses : ∀ i b, (q.instr i).uses (.block b) = true → (p.instr i).uses (.block b) = true)
    (hglobals : ∀ g b, (q.global g).uses (.block b) = true →
      (p.global g).uses (.block b) = true) : p.Shrinks q where
  func f := by rw [hfunc]
  blocks f := by rw [hfunc]
  erasedFunc f h := by rwa [hfunc]
  instrs b := by rw [hblock]
  parent i b h := by rwa [← hparent]
  live i h := by rwa [← herased]
  phi := hphi
  kind := hkind
  uses := huses
  globals := hglobals

theorem trims_replaceUses {old new : Value} (hnew : ∀ b, Value.mentions (.block b) new = false)
    (p : Program) : p.Trims (p.replaceUses old new) := by
  refine .of_evolves (sameFrame_replaceUses p old new).evolves ?_
  have hinstr : ∀ i, ((p.replaceUses old new).instr i).kind = (p.instr i).kind := by
    intro i
    rw [instr_replaceUses]
    split <;> rfl
  refine shrinks_of_instrs (fun _ => rfl) (fun _ => rfl)
    (fun i => ((sameFrame_replaceUses p old new).instr i).1)
    (fun i => ((sameFrame_replaceUses p old new).instr i).2)
    (fun i => by unfold Instr.isPhi; rw [hinstr]) (fun i _ => hinstr i) ?_ ?_
  · intro i b h
    refine (uses_replaceUses rfl h).resolve_right ?_
    rw [hnew b]
    exact Bool.false_ne_true
  · intro g b h
    refine (global_uses_replaceUses rfl h).resolve_right ?_
    rw [hnew b]
    exact Bool.false_ne_true

theorem mentions_undef (ty : Ty) (b : BlockId) : Value.mentions (.block b) (.undef ty) = false := rfl

theorem trims_setInstrName (p : Program) (id : InstrId) (name : Option String) :
    p.Trims (p.setInstrName id name) := by
  refine .of_evolves (sameFrame_setInstrName p id name).evolves ?_
  refine shrinks_of_instrs (fun _ => rfl) (fun _ => rfl) ?_ ?_ ?_ ?_ ?_ (fun _ _ h => h)
  all_goals
    intro i
    obtain ⟨n, hn⟩ := instr_setInstrName p id name i
    rw [hn]
  · rfl
  · exact fun _ => rfl
  · exact fun _ h => h

theorem trims_takeName (p : Program) (source target : InstrId) :
    p.Trims (p.takeName source target) :=
  trans_of Trims (trims_setInstrName p source none) (trims_setInstrName _ target _)

/-! ## 2. Erased nodes -/

theorem trims_dropInstr (h : (p.instr id).erased = false) :
    p.Trims (p.dropInstr id) := by
  refine .of_evolves (evolves_dropInstr h) ?_
  have hinstr : ∀ i, (p.dropInstr id).instr i = p.instr i ∨ (p.dropInstr id).instr i =
      { p.instr i with parent := none, erased := true, name := none } := by
    intro i
    by_cases hi : id = i
    · subst hi
      exact .inr (instr_dropInstr_self (instr_lt_of_live h))
    · exact .inl (instr_dropInstr_ne hi)
  refine ⟨fun f => ?_, fun f => ?_, fun f hf => ?_, fun b => ?_, ?_, ?_, ?_, ?_, ?_, ?_⟩
  · rw [func_dropInstr]
  · rw [func_dropInstr]
  · rwa [func_dropInstr]
  · rw [block_dropInstr]
    split
    · exact List.filter_sublist
    · exact List.Sublist.refl _
  · intro i b hi
    rcases hinstr i with he | he <;> rw [he] at hi
    · exact hi
    · cases hi
  · intro i hi
    rcases hinstr i with he | he <;> rw [he] at hi
    · exact hi
    · cases hi
  · intro i
    rcases hinstr i with he | he <;> rw [he]
    rfl
  · intro i _
    rcases hinstr i with he | he <;> rw [he]
  · intro i b hi
    rcases hinstr i with he | he <;> rw [he] at hi <;> exact hi
  · intro g b hg
    rwa [global_dropInstr] at hg

theorem globals_buryInstrs (p : Program) (ids : List InstrId) :
    (p.buryInstrs ids).globals = p.globals := by
  induction ids generalizing p with
  | nil => rfl
  | cons i ids ih => exact ih _

theorem trims_dropBlock (h : (p.block b).erased = false) : p.Trims (p.dropBlock b) := by
  refine .of_evolves (evolves_dropBlock h) ?_
  have hinstr : ∀ i, (p.dropBlock b).instr i = p.instr i ∨
      (p.dropBlock b).instr i = { p.instr i with parent := none, erased := true } := by
    intro i
    rw [instr_dropBlock]
    split
    · exact .inr rfl
    · exact .inl rfl
  have hglobal : ∀ g, (p.dropBlock b).global g = p.global g := by
    intro g
    unfold global dropBlock
    split <;> simp only [updateBlock, updateFunc, globals_buryInstrs]
  refine ⟨fun f => ?_, fun f => ?_, fun f hf => ?_, fun c => ?_, ?_, ?_, ?_, ?_, ?_, ?_⟩
  · rw [func_dropBlock]
    split <;> rfl
  · rw [func_dropBlock]
    split
    · exact List.filter_sublist
    · exact List.Sublist.refl _
  · rw [func_dropBlock]
    split <;> exact hf
  · by_cases hbc : b = c
    · subst hbc
      rw [block_dropBlock_self (block_lt_of_live h)]
      exact List.nil_sublist _
    · rw [block_dropBlock_ne hbc]
  · intro i c hi
    rcases hinstr i with he | he <;> rw [he] at hi
    · exact hi
    · cases hi
  · intro i hi
    rcases hinstr i with he | he <;> rw [he] at hi
    · exact hi
    · cases hi
  · intro i
    rcases hinstr i with he | he <;> rw [he]
    rfl
  · intro i _
    rcases hinstr i with he | he <;> rw [he]
  · intro i c hi
    rcases hinstr i with he | he <;> rw [he] at hi <;> exact hi
  · intro g c hg
    rwa [hglobal] at hg

theorem trims_dropBlocks (hbs : bs.Nodup)
    (h : ∀ b ∈ bs, (p.block b).erased = false) : p.Trims (p.dropBlocks bs) := by
  induction bs generalizing p with
  | nil => exact refl_of Trims p
  | cons b bs ih =>
    obtain ⟨hb, hbs⟩ := List.nodup_cons.mp hbs
    refine trans_of Trims (trims_dropBlock (h b List.mem_cons_self)) (ih hbs fun c hc => ?_)
    have hne : b ≠ c := fun he => hb (he ▸ hc)
    rw [block_dropBlock_ne hne]
    exact h c (List.mem_cons_of_mem b hc)

theorem trims_dropFunction (f : FuncId) : p.Trims (p.dropFunction f) := by
  intro hp
  obtain ⟨hq, hs⟩ := trims_dropBlocks (hp.nodup_blocks f)
    (fun b hb => hp.block_live_of_listed hb) hp
  refine ⟨(evolves_updateFunc_erased _ f hq).1, hs.trans ?_⟩
  unfold dropFunction
  generalize p.dropBlocks (p.func f).blocks = q
  have hfunc : ∀ g, (q.updateFunc f ({ · with erased := true })).func g =
      { q.func g with erased := ((q.updateFunc f ({ · with erased := true })).func g).erased } := by
    intro g
    rw [func_updateFunc]
    split <;> rfl
  refine ⟨fun g => ?_, fun g => ?_, fun g hg => ?_, fun _ => List.Sublist.refl _, fun _ _ h => h,
    fun _ h => h, fun _ => rfl, fun _ _ => rfl, fun _ _ h => h, fun _ _ h => h⟩
  · rw [hfunc g]
  · rw [hfunc g]
  · rw [func_updateFunc]
    split
    · rfl
    · exact hg

/-! ## 3. Cut edges -/

theorem forgetEntry_plain (h : i.isPhi = false) (source : BlockId) :
    forgetEntry i source = i := by
  cases i with
  | mk kind =>
    cases kind with
    | phi => cases h
    | _ => rfl

theorem successors_forgetEntry (i : Instr) (source : BlockId) :
    (forgetEntry i source).successors = i.successors := by
  cases hphi : i.isPhi with
  | false => rw [forgetEntry_plain hphi]
  | true =>
    obtain ⟨blocks, hkind⟩ := Instr.isPhi_iff.mp hphi
    unfold forgetEntry Instr.successors
    rw [hkind]

theorem forgetEntry_same (i : Instr) (source : BlockId) :
    (forgetEntry i source).parent = i.parent ∧ (forgetEntry i source).erased = i.erased ∧
      (forgetEntry i source).isPhi = i.isPhi ∧ (forgetEntry i source).operands ⊆ i.operands := by
  cases hphi : i.isPhi with
  | false =>
    rw [forgetEntry_plain hphi]
    exact ⟨rfl, rfl, hphi, fun _ h => h⟩
  | true =>
    obtain ⟨blocks, hkind⟩ := Instr.isPhi_iff.mp hphi
    unfold forgetEntry
    rw [hkind]
    refine ⟨rfl, rfl, rfl, fun v hv => ?_⟩
    obtain ⟨⟨w, c⟩, hw, rfl⟩ := List.mem_map.mp hv
    exact (List.of_mem_zip (List.mem_of_mem_filter hw)).1

theorem trims_forgetEntry (p : Program) (id : InstrId) (source : BlockId) :
    p.Trims (p.updateInstr id (forgetEntry · source)) := by
  refine .of_evolves (sameFrame_updateInstr (g := (forgetEntry · source))
    (fun i => ⟨(forgetEntry_same i source).1, (forgetEntry_same i source).2.1⟩) p id).evolves ?_
  have hinstr : ∀ i, (p.updateInstr id (forgetEntry · source)).instr i = p.instr i ∨
      (p.updateInstr id (forgetEntry · source)).instr i = forgetEntry (p.instr i) source := by
    intro i
    rw [instr_updateInstr]
    split
    · exact .inr rfl
    · exact .inl rfl
  refine shrinks_of_instrs (fun _ => rfl) (fun _ => rfl) ?_ ?_ ?_ ?_ ?_ (fun _ _ h => h)
  all_goals
    intro i
    obtain ⟨hparent, herased, hphi, hoperands⟩ := forgetEntry_same (p.instr i) source
    rcases hinstr i with he | he <;> rw [he]
  · exact hparent
  · exact herased
  · exact hphi
  · exact fun _ => rfl
  · exact fun h => congrArg Instr.kind (forgetEntry_plain h source)
  · exact fun _ h => h
  · intro b h
    obtain ⟨v, hv, hmentions⟩ := Instr.uses_iff.mp h
    exact Instr.uses_iff.mpr ⟨v, hoperands hv, hmentions⟩

/-- A phi forgets what came from a block; other instructions stay. -/
def forgetIn (source : BlockId) (p : Program) (id : InstrId) : Except ProgramError Program :=
  match (p.instr id).kind with
  | .phi _ => do
    p.requireLive id
    return p.updateInstr id (forgetEntry · source)
  | _ => .ok p

theorem cutEdge_eq (p : Program) (b source : BlockId) : p.cutEdge b source =
    if (p.block b).erased then .ok p else (p.block b).instrs.foldlM (forgetIn source) p := rfl

theorem forgetIn_ok (h : p.forgetIn source id = .ok q) :
    (p.instr id).isPhi = true ∧ q = p.updateInstr id (forgetEntry · source) ∨
      (p.instr id).isPhi = false ∧ q = p := by
  unfold forgetIn at h
  split at h
  · rename_i blocks hkind
    obtain ⟨u, -, hr⟩ := except_bind_ok.mp h
    cases hr
    exact .inl ⟨Instr.isPhi_iff.mpr ⟨blocks, hkind⟩, rfl⟩
  · rename_i hnot
    cases h
    refine .inr ⟨Bool.eq_false_iff.mpr fun hphi => ?_, rfl⟩
    obtain ⟨blocks, hkind⟩ := Instr.isPhi_iff.mp hphi
    exact hnot blocks hkind

theorem cutEdge_keeps {R : Program → Program → Prop} [IsPreorder Program R]
    (hR : ∀ p id, R p (p.updateInstr id (forgetEntry · source)))
    (h : p.cutEdge b source = .ok q) : R p q := by
  have hall : ∀ (ids : List InstrId) (p q : Program),
      ids.foldlM (forgetIn source) p = .ok q → R p q := by
    intro ids
    induction ids with
    | nil =>
      intro p q h
      cases h
      exact refl_of R p
    | cons id ids ih =>
      intro p q h
      rw [List.foldlM_cons] at h
      obtain ⟨r, hr, hrest⟩ := except_bind_ok.mp h
      rcases forgetIn_ok hr with ⟨-, rfl⟩ | ⟨-, rfl⟩
      · exact trans_of R (hR p id) (ih _ q hrest)
      · exact ih _ q hrest
  rw [cutEdge_eq] at h
  split at h
  · cases h
    exact refl_of R p
  · exact hall _ p q h

theorem cutEdge_ok (h : p.cutEdge b source = .ok q) :
    p.Trims q ∧ (∀ f, q.func f = p.func f) ∧ ∀ c, q.block c = p.block c := by
  let R (p q : Program) : Prop :=
    p.Trims q ∧ (∀ f, q.func f = p.func f) ∧ ∀ c, q.block c = p.block c
  have : IsPreorder Program R :=
    { refl := fun p => ⟨refl_of Trims p, fun _ => rfl, fun _ => rfl⟩
      trans := fun _ _ _ h₁ h₂ => ⟨trans_of Trims h₁.1 h₂.1, fun f => (h₂.2.1 f).trans (h₁.2.1 f),
        fun c => (h₂.2.2 c).trans (h₁.2.2 c)⟩ }
  exact cutEdge_keeps (R := R)
    (fun p id => ⟨trims_forgetEntry p id source, fun _ => rfl, fun _ => rfl⟩) h

theorem instr_forgetEntry_plain {i : InstrId} (h : (p.instr i).isPhi = false) (id : InstrId)
    (source : BlockId) : (p.updateInstr id (forgetEntry · source)).instr i = p.instr i := by
  rw [instr_updateInstr]
  split
  · exact forgetEntry_plain h source
  · rfl

/-! ## 4. What is left alone -/

/-- The instructions of a block without its phis. -/
def plainInstrs (p : Program) (b : BlockId) : List InstrId :=
  (p.block b).instrs.filter fun i => !(p.instr i).isPhi

theorem Shrinks.plainInstrs (h : p.Shrinks q)
    (hb : (q.block b).instrs = (p.block b).instrs) : q.plainInstrs b = p.plainInstrs b := by
  unfold Program.plainInstrs
  rw [hb]
  exact List.filter_congr fun i _ => by rw [h.phi]

/-- A value mentions an instruction that has gone, or one of the functions `F`. -/
def MentionsGone (F : FuncId → Prop) (q : Program) (v : Value) : Prop :=
  (∃ i, (q.instr i).erased = true ∧ Value.mentions (.instr i) v = true) ∨
    ∃ f, F f ∧ Value.mentions (.func f) v = true

/-- What becomes of an instruction where only uses of what has gone are replaced. -/
structure Remains (F : FuncId → Prop) (q : Program) (i j : Instr) : Prop where
  ty : j.ty = i.ty
  operands : List.Forall₂ (fun v w => w = v ∨ MentionsGone F q v) i.operands j.operands

section

variable {F G : FuncId → Prop} {i j k : Instr}

theorem Remains.of_eq (hty : j.ty = i.ty) (hoperands : j.operands = i.operands) :
    Remains F q i j :=
  ⟨hty, hoperands ▸ List.forall₂_same.mpr fun _ _ => .inl rfl⟩

theorem Remains.mono (h : Remains F q i j) (hF : ∀ f, F f → G f) (hs : q.Shrinks r) :
    Remains G r i j :=
  ⟨h.ty, h.operands.imp fun _ _ hvw => hvw.imp_right (Or.imp
    (fun ⟨i, hi, hmentions⟩ => ⟨i, hs.erased i hi, hmentions⟩)
    fun ⟨f, hf, hmentions⟩ => ⟨f, hF f hf, hmentions⟩)⟩

theorem Remains.trans (h₁ : Remains F q i j) (h₂ : Remains F q j k) : Remains F q i k := by
  refine ⟨h₂.ty.trans h₁.ty, ?_⟩
  have hone := h₁.operands
  have htwo := h₂.operands
  generalize i.operands = us, j.operands = vs, k.operands = ws at hone htwo ⊢
  induction hone generalizing ws with
  | nil => exact htwo
  | cons huv _ ih =>
    cases htwo with
    | cons hvw hrest =>
      refine .cons ?_ (ih _ hrest)
      rcases huv with rfl | hgone
      · exact hvw
      · exact .inr hgone

theorem remains_replaceUses {old new : Value} (p : Program)
    (hold : ∀ v, Value.mentions old v = true → MentionsGone F q v) (i : InstrId) :
    Remains F q (p.instr i) ((p.replaceUses old new).instr i) := by
  rw [instr_replaceUses]
  split
  · refine ⟨rfl, List.forall₂_map_right_iff.mpr (List.forall₂_same.mpr fun v _ => ?_)⟩
    by_cases hmentions : Value.mentions old v = true
    · exact .inr (hold v hmentions)
    · exact .inl (Value.substitute_of_not_mentions _ (Bool.not_eq_true _ ▸ hmentions))
  · exact .of_eq rfl rfl

end

/-- Parts go of these functions and blocks only. -/
structure Within (fs : List FuncId) (bs : List BlockId) (p q : Program) : Prop where
  sound : q.Sound
  shrinks : p.Shrinks q
  func : ∀ f ∉ fs, (q.func f).erased = (p.func f).erased
  block : ∀ b ∉ bs, (q.block b).parent = (p.block b).parent ∧ q.plainInstrs b = p.plainInstrs b
  plain : ∀ i, (q.instr i).erased = false → (p.instr i).isPhi = false →
    Remains (· ∈ fs) q (p.instr i) (q.instr i)

/-- A sound program loses parts of these functions and blocks only. -/
def Prunes (fs : List FuncId) (bs : List BlockId) (p q : Program) : Prop :=
  p.Sound → Within fs bs p q

section

variable {fs : List FuncId} {bs : List BlockId}

theorem Within.trans (h₁ : Within fs bs p q) (h₂ : Within fs bs q r) : Within fs bs p r where
  sound := h₂.sound
  shrinks := h₁.shrinks.trans h₂.shrinks
  func f hf := (h₂.func f hf).trans (h₁.func f hf)
  block b hb := ⟨(h₂.block b hb).1.trans (h₁.block b hb).1, (h₂.block b hb).2.trans (h₁.block b hb).2⟩
  plain i hi hphi := by
    have hone := (h₁.plain i (h₂.shrinks.live i hi) hphi).mono (fun _ hf => hf) h₂.shrinks
    exact hone.trans (h₂.plain i hi ((h₁.shrinks.phi i).trans hphi))

instance : IsPreorder Program (Prunes fs bs) where
  refl p h := ⟨h, .refl p, fun _ _ => rfl, fun _ _ => ⟨rfl, rfl⟩, fun _ _ _ => .of_eq rfl rfl⟩
  trans _ _ _ h₁ h₂ h := (h₁ h).trans (h₂ (h₁ h).sound)

theorem Prunes.trims (h : Prunes fs bs p q) : p.Trims q :=
  fun hp => ⟨(h hp).sound, (h hp).shrinks⟩

theorem Trims.prunes (h : p.Trims q) (hfunc : ∀ f ∉ fs, (q.func f).erased = (p.func f).erased)
    (hblock : ∀ b ∉ bs, q.block b = p.block b)
    (hplain : ∀ i, (q.instr i).erased = false → (p.instr i).isPhi = false →
      Remains (· ∈ fs) q (p.instr i) (q.instr i)) : Prunes fs bs p q := by
  intro hp
  obtain ⟨hq, hs⟩ := h hp
  refine ⟨hq, hs, hfunc, fun b hb => ?_, hplain⟩
  rw [hblock b hb]
  exact ⟨rfl, hs.plainInstrs (by rw [hblock b hb])⟩

theorem prunes_undefine (hf : f ∈ fs) (ty : Ty) (p : Program) :
    Prunes fs bs p (p.replaceUses (.func f) (.undef ty)) :=
  (trims_replaceUses (fun b => mentions_undef ty b) p).prunes (fun _ _ => rfl) (fun _ _ => rfl)
    fun i _ _ => remains_replaceUses p (fun _ hmentions => .inr ⟨f, hf, hmentions⟩) i

theorem prunes_forgetEntry (p : Program) (id : InstrId) (source : BlockId) :
    Prunes fs bs p (p.updateInstr id (forgetEntry · source)) := by
  refine (trims_forgetEntry p id source).prunes (fun _ _ => rfl) (fun _ _ => rfl) fun i _ hphi => ?_
  rw [instr_forgetEntry_plain hphi]
  exact .of_eq rfl rfl

theorem plainInstrs_dropInstr (hs : p.Shrinks (p.dropInstr id))
    (h : (p.instr id).isPhi = true ∨ (p.instr id).parent ≠ some b) :
    (p.dropInstr id).plainInstrs b = p.plainInstrs b := by
  unfold plainInstrs
  rw [block_dropInstr]
  split
  · rename_i hparent
    have hphi := h.resolve_right (not_not.mpr hparent)
    dsimp only
    rw [List.filter_filter]
    refine List.filter_congr fun i _ => ?_
    rw [hs.phi]
    by_cases hi : i = id
    · simp [hi, hphi]
    · simp [hi]
  · exact List.filter_congr fun i _ => by rw [hs.phi]

theorem prunes_remove {v : Value} (hlive : (p.instr id).erased = false)
    (hblocks : ∀ b, Value.mentions (.block b) v = false)
    (hstands : (p.instr id).isPhi = true ∨ ∀ b, (p.instr id).parent = some b → b ∈ bs) :
    Prunes fs bs p ((p.replaceUses (.instr id) v).dropInstr id) := by
  intro hp
  have htrims : Trims p (p.replaceUses (.instr id) v) := trims_replaceUses hblocks p
  obtain ⟨hq, hs⟩ := htrims hp
  obtain ⟨hparent, herased⟩ := (sameFrame_replaceUses p (.instr id) v).instr id
  obtain ⟨hr, hs'⟩ := trims_dropInstr (herased.trans hlive) hq
  refine ⟨hr, hs.trans hs', fun f _ => by rw [func_dropInstr]; rfl, fun b hb => ⟨?_, ?_⟩,
    fun i hi _ => ?_⟩
  · rw [block_dropInstr]
    split <;> rfl
  · refine (plainInstrs_dropInstr hs' (hstands.imp (hs.phi id).trans fun hbs heq => ?_)).trans
      (hs.plainInstrs rfl)
    exact hb (hbs b (hparent.symm.trans heq))
  · have hgone := instr_dropInstr_self (instr_lt_of_live (herased.trans hlive))
    have hne : id ≠ i := by
      rintro rfl
      rw [hgone] at hi
      cases hi
    rw [instr_dropInstr_ne hne]
    exact remains_replaceUses p (fun _ hmentions => .inl ⟨id, by rw [hgone], hmentions⟩) i

theorem prunes_dropBlock (h : (p.block b).erased = false) (hb : b ∈ bs) :
    Prunes fs bs p (p.dropBlock b) := by
  refine (trims_dropBlock h).prunes (fun f _ => ?_) (fun c hc => ?_) fun i _ _ => ?_
  · rw [func_dropBlock]
    split <;> rfl
  · exact block_dropBlock_ne fun he => hc (he ▸ hb)
  · obtain ⟨_, _, he⟩ := same_dropBlock p b i
    rw [he]
    exact .of_eq rfl rfl

theorem block_dropBlocks {c : BlockId} (hc : c ∉ bs) :
    (p.dropBlocks bs).block c = p.block c := by
  induction bs generalizing p with
  | nil => rfl
  | cons b bs ih =>
    have hne : b ≠ c := fun he => hc (he ▸ List.mem_cons_self)
    exact (ih fun hmem => hc (List.mem_cons_of_mem b hmem)).trans (block_dropBlock_ne hne)

theorem func_dropBlocks_erased (f : FuncId) :
    ((p.dropBlocks bs).func f).erased = (p.func f).erased := by
  induction bs generalizing p with
  | nil => rfl
  | cons b bs ih =>
    refine ih.trans ?_
    rw [func_dropBlock]
    split <;> rfl

/-- A function goes with its blocks, and all else stays. -/
theorem prunes_dropFunction (hf : f ∈ fs) (hbs : (p.func f).blocks ⊆ bs) :
    Prunes fs bs p (p.dropFunction f) := by
  refine (trims_dropFunction f).prunes (fun g hg => ?_)
    (fun b hb => block_dropBlocks fun hmem => hb (hbs hmem)) fun i _ _ => ?_
  · have hne : f ≠ g := fun he => hg (he ▸ hf)
    unfold dropFunction
    rw [func_updateFunc_ne hne]
    exact func_dropBlocks_erased g
  · obtain ⟨_, _, he⟩ := same_dropFunction p f i
    rw [he]
    exact .of_eq rfl rfl

theorem func_dropFunction_self (h : (p.func f).erased = false) :
    ((p.dropFunction f).func f).erased = true := by
  have hlt : f.index < (p.dropBlocks (p.func f).blocks).functions.size :=
    func_lt_of_live ((func_dropBlocks_erased f).trans h)
  unfold dropFunction
  rw [func_updateFunc_self hlt]

theorem Within.blocks (hp : p.Sound) (h : Within fs bs p q) {keep : BlockId → Bool}
    (hkeep : ∀ b ∈ (p.func f).blocks, keep b = true → b ∉ bs)
    (hgone : ∀ b ∈ (p.func f).blocks, keep b = false → b ∉ (q.func f).blocks) :
    (q.func f).blocks = (p.func f).blocks.filter keep := by
  have hself : (q.func f).blocks.filter keep = (q.func f).blocks := by
    refine List.filter_eq_self.mpr fun b hb => ?_
    cases hk : keep b with
    | true => rfl
    | false => exact absurd hb (hgone b ((h.shrinks.blocks f).subset hb) hk)
  have hsub := (h.shrinks.blocks f).filter keep
  rw [hself] at hsub
  refine hsub.eq_of_length_le (List.Nodup.subperm ((hp.nodup_blocks f).filter keep) ?_).length_le
  intro b hb
  obtain ⟨hlisted, hk⟩ := List.mem_filter.mp hb
  rw [h.sound.mem_blocks, (h.block b (hkeep b hlisted hk)).1]
  exact hp.mem_blocks.mp hlisted

end

end QirProfile.Program
