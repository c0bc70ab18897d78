import QirProfile.Proofs.Execution.Changes

/-!
# Edges that folding takes away

A block is left by its first terminator, and an edge leads from it to each block that the terminator
names, one for every time. Where two edges leave a block, folding may take one of them away, and the
phis of a block forget the blocks from which no edge is left.
-/

namespace QirProfile

/-! ## 1. Instructions that lead the same way -/

/-- Instructions of the same kind, with the same blocks in the same places. -/
structure Instr.SameEdges (i j : Instr) : Prop where
  kind : j.kind = i.kind
  operands : ∃ g : Value → Value, (∀ v, (g v).toBlock? = v.toBlock?) ∧
    j.operands = i.operands.map g

/-- A phi has a value for every block, and what a phi or a `select` chooses from is no block. -/
structure Instr.Plain (i : Instr) : Prop where
  paired : i.isPhi = true → i.phiBlocks.length = i.operands.length
  values : i.isPhi = true ∨ i.kind = .select → ∀ v ∈ i.operands, v.toBlock? = none

namespace Instr

variable {i j : Instr}

theorem SameEdges.refl (i : Instr) : i.SameEdges i :=
  ⟨rfl, id, fun _ => rfl, (List.map_id _).symm⟩

theorem SameEdges.isTerminator (h : i.SameEdges j) : j.isTerminator = i.isTerminator := by
  rw [Instr.isTerminator, Instr.isTerminator, h.kind]

theorem SameEdges.isPhi (h : i.SameEdges j) : j.isPhi = i.isPhi := by
  rw [Instr.isPhi, Instr.isPhi, h.kind]

theorem SameEdges.phiBlocks (h : i.SameEdges j) : j.phiBlocks = i.phiBlocks := by
  rw [Instr.phiBlocks, Instr.phiBlocks, h.kind]

theorem SameEdges.successors (h : i.SameEdges j) : j.successors = i.successors := by
  obtain ⟨g, hg, hoperands⟩ := h.operands
  exact successors_map h.kind hoperands hg

theorem SameEdges.plain (h : i.SameEdges j) (hi : i.Plain) : j.Plain := by
  obtain ⟨g, hg, hoperands⟩ := h.operands
  refine ⟨fun hphi => ?_, fun hj v hv => ?_⟩
  · rw [h.phiBlocks, hoperands, List.length_map]
    exact hi.paired (h.isPhi ▸ hphi)
  · rw [hoperands] at hv
    obtain ⟨u, hu, rfl⟩ := List.mem_map.mp hv
    rw [hg]
    rw [h.isPhi, h.kind] at hj
    exact hi.values hj u hu

theorem plain_of_kind (hphi : i.isPhi = false) (hselect : i.kind ≠ .select) : i.Plain := by
  refine ⟨fun h => ?_, fun h => ?_⟩
  · rw [hphi] at h
    cases h
  · rw [hphi] at h
    exact absurd (h.resolve_left Bool.false_ne_true) hselect

theorem phiBlocks_forgetEntry (hi : i.Plain) (hphi : i.isPhi = true) (source : BlockId) :
    (Program.forgetEntry i source).phiBlocks = i.phiBlocks.filter (· != source) := by
  obtain ⟨blocks, hkind⟩ := isPhi_iff.mp hphi
  have hblocks : i.phiBlocks = blocks := by rw [Instr.phiBlocks, hkind]
  have hpaired := hi.paired hphi
  rw [hblocks] at hpaired ⊢
  unfold Program.forgetEntry
  rw [hkind]
  change ((i.operands.zip blocks).filter (·.2 != source)).map (·.2) = blocks.filter (· != source)
  conv => rhs; rw [← List.map_snd_zip (Nat.le_of_eq hpaired), List.filter_map]
  rfl

theorem Plain.forgetEntry (hi : i.Plain) (source : BlockId) :
    (Program.forgetEntry i source).Plain := by
  cases hphi : i.isPhi with
  | false =>
    rw [Program.forgetEntry_plain hphi]
    exact hi
  | true =>
    obtain ⟨-, -, -, hoperands⟩ := Program.forgetEntry_same i source
    refine ⟨fun _ => ?_, fun _ v hv => hi.values (.inl hphi) v (hoperands hv)⟩
    obtain ⟨blocks, hkind⟩ := isPhi_iff.mp hphi
    unfold Program.forgetEntry
    rw [hkind, Instr.phiBlocks]
    dsimp only
    rw [List.length_map, List.length_map]

end Instr

namespace Program

variable {p q r : Program} {D D' : List InstrId} {f : FuncId} {a e new : InstrId} {b : BlockId}
  {front back : List InstrId}

/-! ## 2. Edges that stay -/

/-- Where control may go from a block, once for every edge. -/
def edgesFrom (p : Program) (b : BlockId) : List BlockId :=
  ((p.exit? b).map fun e => (p.instr e).successors).getD []

theorem edgesFrom_of_exit (h : p.exit? b = some e) : p.edgesFrom b = (p.instr e).successors := by
  rw [edgesFrom, h]
  rfl

theorem edgesFrom_congr (hexit : q.exit? b = p.exit? b)
    (hsame : ∀ e ∈ (p.block b).instrs, (q.instr e).successors = (p.instr e).successors) :
    q.edgesFrom b = p.edgesFrom b := by
  unfold edgesFrom
  rw [hexit]
  cases h : p.exit? b with
  | none => rfl
  | some e => exact congrArg (fun ls => (some ls).getD []) (hsame e (exit_mem h).1)

/-- All edges stay, or one of two. -/
def Narrows (ls ls' : List BlockId) : Prop :=
  ls' = ls ∨ ∃ x y, ls = [x, y] ∧ (ls' = [x] ∨ ls' = [y])

theorem Narrows.subset {ls ls' : List BlockId} (h : Narrows ls ls') : ls' ⊆ ls := by
  rcases h with rfl | ⟨x, y, rfl, rfl | rfl⟩
  · exact List.Subset.refl _
  · simp
  · simp

theorem Narrows.trans {ks ls ms : List BlockId} (h₁ : Narrows ks ls) (h₂ : Narrows ls ms) :
    Narrows ks ms := by
  rcases h₂ with rfl | ⟨x, y, rfl, hms⟩
  · exact h₁
  · rcases h₁ with heq | ⟨u, v, -, heq | heq⟩
    · exact .inr ⟨x, y, heq.symm, hms⟩
    · cases heq
    · cases heq

/-- Edges of a program have gone, and the phis of the function have forgotten the blocks from which no
    edge is left, and no other ones. No phi is new. -/
structure Sheds (f : FuncId) (p q : Program) : Prop where
  blocks : (q.func f).blocks = (p.func f).blocks
  edges : ∀ b, Narrows (p.edgesFrom b) (q.edgesFrom b)
  phis : ∀ b ∈ (p.func f).blocks, ∀ i ∈ (q.block b).instrs, (q.instr i).isPhi = true →
    i ∈ (p.block b).instrs ∧ (p.instr i).isPhi = true ∧ (q.instr i).phiBlocks =
      (p.instr i).phiBlocks.filter fun s => b ∈ p.edgesFrom s → b ∈ q.edgesFrom s

theorem Sheds.refl (f : FuncId) (p : Program) : Sheds f p p where
  blocks := rfl
  edges _ := .inl rfl
  phis _ _ _ hi hphi := ⟨hi, hphi, (List.filter_eq_self.mpr fun _ _ => decide_eq_true id).symm⟩

theorem Sheds.trans (h₁ : Sheds f p q) (h₂ : Sheds f q r) : Sheds f p r where
  blocks := h₂.blocks.trans h₁.blocks
  edges b := (h₁.edges b).trans (h₂.edges b)
  phis b hb i hi hphi := by
    obtain ⟨hiq, hphiq, hr⟩ := h₂.phis b (h₁.blocks ▸ hb) i hi hphi
    obtain ⟨hip, hphip, hq⟩ := h₁.phis b hb i hiq hphiq
    refine ⟨hip, hphip, ?_⟩
    rw [hr, hq, List.filter_filter]
    refine List.filter_congr fun s _ => ?_
    have hsub₁ : b ∈ q.edgesFrom s → b ∈ p.edgesFrom s := fun h => (h₁.edges s).subset h
    have hsub₂ : b ∈ r.edgesFrom s → b ∈ q.edgesFrom s := fun h => (h₂.edges s).subset h
    rw [← Bool.decide_and, decide_eq_decide]
    exact ⟨fun h hp => h.1 (h.2 hp), fun h => ⟨fun hq => h (hsub₁ hq), fun hp => hsub₂ (h hp)⟩⟩

theorem sheds_of_same (hfunc : (q.func f).blocks = (p.func f).blocks)
    (hexit : ∀ b, q.exit? b = p.exit? b) (hsub : ∀ b, (q.block b).instrs ⊆ (p.block b).instrs)
    (hsame : ∀ b, ∀ i ∈ (p.block b).instrs, (p.instr i).SameEdges (q.instr i)) : Sheds f p q := by
  have hedges : ∀ b, q.edgesFrom b = p.edgesFrom b := fun b =>
    edgesFrom_congr (hexit b) fun e he => (hsame b e he).successors
  refine ⟨hfunc, fun b => .inl (hedges b), fun b _ i hi hphi => ?_⟩
  have hi' := hsame b i (hsub b hi)
  refine ⟨hsub b hi, hi'.isPhi ▸ hphi, ?_⟩
  rw [hi'.phiBlocks]
  exact (List.filter_eq_self.mpr fun s _ => decide_eq_true fun h => hedges s ▸ h).symm

/-- Before a terminator that is not in `D` nothing ends its block, and behind it there is nothing but
    what is in `D`. All instructions are plain. -/
structure WellEnded (D : List InstrId) (f : FuncId) (p : Program) : Prop where
  ends : ∀ b ∈ (p.func f).blocks, ∀ i ∈ (p.block b).instrs, i ∉ D →
    (p.instr i).isTerminator = true → ∃ front back, (p.block b).instrs = front ++ i :: back ∧
      (∀ x ∈ front, (p.instr x).isTerminator = false) ∧ back ⊆ D
  plain : ∀ b ∈ (p.func f).blocks, ∀ i ∈ (p.block b).instrs, (p.instr i).Plain

theorem WellEnded.mono (h : WellEnded D f p) (hD : D ⊆ D') : WellEnded D' f p where
  ends b hb i hi hout hterm := by
    obtain ⟨front, back, hinstrs, hfront, hback⟩ := h.ends b hb i hi (fun h => hout (hD h)) hterm
    exact ⟨front, back, hinstrs, hfront, List.Subset.trans hback hD⟩
  plain := h.plain

theorem WellEnded.shed (h : WellEnded (a :: D) f p) (hfunc : (q.func f).blocks = (p.func f).blocks)
    (hblock : ∀ b, (q.block b).instrs = (p.block b).instrs.filter (· != a))
    (hsame : ∀ b, ∀ i ∈ (p.block b).instrs, (p.instr i).SameEdges (q.instr i)) :
    WellEnded D f q := by
  have hmem : ∀ {b i}, i ∈ (q.block b).instrs → i ∈ (p.block b).instrs ∧ i ≠ a := by
    intro b i hi
    rw [hblock, List.mem_filter, bne_iff_ne] at hi
    exact hi
  refine ⟨fun b hb i hi hout hterm => ?_, fun b hb i hi => ?_⟩
  · obtain ⟨hip, hne⟩ := hmem hi
    have hterm' : (p.instr i).isTerminator = true := (hsame b i hip).isTerminator ▸ hterm
    obtain ⟨front, back, hinstrs, hfront, hback⟩ :=
      h.ends b (hfunc ▸ hb) i hip (List.not_mem_cons_of_ne_of_not_mem hne hout) hterm'
    refine ⟨front.filter (· != a), back.filter (· != a), ?_, fun x hx => ?_, fun x hx => ?_⟩
    · rw [hblock, hinstrs, List.filter_append,
        List.filter_cons_of_pos (p := (· != a)) (bne_iff_ne.mpr hne)]
    · have hx' := List.mem_of_mem_filter hx
      rw [(hsame b x (hinstrs ▸ List.mem_append_left _ hx')).isTerminator]
      exact hfront x hx'
    · obtain ⟨hx, hne⟩ := List.mem_filter.mp hx
      exact (List.mem_cons.mp (hback hx)).resolve_left (bne_iff_ne.mp hne)
  · have hip := (hmem hi).1
    exact (hsame b i hip).plain (h.plain b (hfunc ▸ hb) i hip)

/-! ## 3. Terminators that are relieved -/

/-- A branch has been put before the terminator `e`, and perhaps a call before the branch. -/
structure Diverted (p q : Program) (e new : InstrId) (b taken : BlockId)
    (front back : List InstrId) : Prop where
  func : ∀ f, q.func f = p.func f
  before : (p.block b).instrs = front ++ e :: back
  after : ∃ calls, (q.block b).instrs = (front ++ calls) ++ new :: e :: back ∧
    ∀ i ∈ calls, (q.instr i).kind = .call .none
  others : ∀ c ≠ b, (q.block c).instrs = (p.block c).instrs
  same : ∀ c, ∀ i ∈ (p.block c).instrs, (p.instr i).SameEdges (q.instr i)
  branch : (q.instr new).kind = .br ∧ (q.instr new).operands = [.block taken]

theorem Inserted.diverted {taken : BlockId} (hp : p.Sound)
    (hins : Inserted p q (draftBr taken) e new b front back) :
    Diverted p q e new b taken front back := by
  obtain ⟨name, hmade⟩ := hins.made
  refine ⟨hins.func, hins.before, ⟨[], by rw [hins.after, List.append_nil], nofun⟩, hins.others,
    fun c i hi => ?_, by rw [hmade]; exact ⟨rfl, rfl⟩⟩
  rw [hins.instr_of_mem hp hi]
  exact .refl _

theorem LoweredTo.diverted {call : InstrId} {callee : FuncId} {normal : BlockId} (hp : p.Sound)
    (hlow : LoweredTo p q e call new callee normal b front back) :
    Diverted p q e new b normal front back := by
  refine ⟨hlow.func, hlow.before, ⟨[call], ?_, fun i hi => ?_⟩, hlow.others, fun c i hi => ?_,
    hlow.branch⟩
  · rw [hlow.after, List.append_assoc]
    rfl
  · rw [List.mem_singleton.mp hi]
    exact hlow.call.1
  · have hlive := hp.instr_live hi
    exact ⟨hlow.kind i (instr_lt_of_live hlive), _, Value.toBlock?_substitute rfl rfl,
      (hlow.instr i hlive).2⟩

theorem Diverted.stood {taken c : BlockId} (h : Diverted p q e new b taken front back)
    (ha : a ∈ (q.block c).instrs) :
    a ∈ (p.block c).instrs ∨ a = new ∨ (q.instr a).kind = .call .none := by
  by_cases hc : c = b
  · subst hc
    obtain ⟨calls, hafter, hcalls⟩ := h.after
    rw [hafter] at ha
    rw [h.before]
    simp only [List.mem_append, List.mem_cons] at ha ⊢
    rcases ha with (ha | ha) | ha | ha | ha
    · exact .inl (.inl ha)
    · exact .inr (.inr (hcalls a ha))
    · exact .inr (.inl ha)
    · exact .inl (.inr (.inl ha))
    · exact .inl (.inr (.inr ha))
  · rw [h.others c hc] at ha
    exact .inl ha

theorem cut_exact (hq : q.Sound) {taken dropped : BlockId}
    (hcut : (if taken ≠ dropped then q.cutEdge dropped b else .ok q) = .ok r) :
    (∀ c, (r.block c).instrs = (q.block c).instrs) ∧ (∀ f, r.func f = q.func f) ∧
      ∀ i, r.instr i = if taken ≠ dropped ∧ i ∈ (q.block dropped).instrs then
        forgetEntry (q.instr i) b else q.instr i := by
  by_cases hne : taken ≠ dropped
  · rw [if_pos hne] at hcut
    obtain ⟨r', hcut', hframe, hfunc, hinstr⟩ := cutEdge_exact hq dropped b
    obtain rfl : r' = r := Except.ok.inj (hcut'.symm.trans hcut)
    refine ⟨fun c => (hframe.block c).2.1, hfunc, fun i => ?_⟩
    rw [hinstr]
    simp only [hne, true_and, ne_eq, not_false_eq_true]
  · rw [if_neg hne] at hcut
    cases hcut
    exact ⟨fun _ => rfl, fun _ => rfl, fun i => (if_neg fun h => hne h.1).symm⟩

section

variable {taken dropped : BlockId} (hq : q.Sound) (h : Diverted p q e new b taken front back)
  (hfront : ∀ x ∈ front, (p.instr x).isTerminator = false)
  (hterm : (p.instr e).isTerminator = true)
  (hcut : (if taken ≠ dropped then q.cutEdge dropped b else .ok q) = .ok r)

include hq hcut

theorem cut_same (i : InstrId) : (r.instr i).isTerminator = (q.instr i).isTerminator ∧
    (r.instr i).isPhi = (q.instr i).isPhi ∧ (r.instr i).successors = (q.instr i).successors ∧
      ((q.instr i).Plain → (r.instr i).Plain) := by
  obtain ⟨-, -, hinstr⟩ := cut_exact hq hcut
  rw [hinstr]
  split
  · exact ⟨(forgets_forgetEntry b _).isTerminator, (forgetEntry_same _ b).2.2.1,
      successors_forgetEntry _ b, fun hi => hi.forgetEntry b⟩
  · exact ⟨rfl, rfl, rfl, id⟩

theorem cut_phiBlocks {c : BlockId} {i : InstrId} (hi : i ∈ (q.block c).instrs)
    (hplain : (q.instr i).Plain) (hphi : (q.instr i).isPhi = true) :
    (r.instr i).phiBlocks = (q.instr i).phiBlocks.filter fun s =>
      taken ≠ dropped ∧ c = dropped → s ≠ b := by
  obtain ⟨-, -, hinstr⟩ := cut_exact hq hcut
  -- the phis at the end of the edge stand in that block only
  have hthere : i ∈ (q.block dropped).instrs ↔ c = dropped := by
    rw [hq.mem_instrs, hq.mem_instrs.mp hi, Option.some_inj]
  rw [hinstr]
  simp only [hthere]
  split
  · rename_i hcond
    rw [Instr.phiBlocks_forgetEntry hplain hphi]
    refine List.filter_congr fun s _ => ?_
    rw [Bool.eq_iff_iff, bne_iff_ne, decide_eq_true_eq]
    exact ⟨fun h _ => h, fun h => h hcond⟩
  · rename_i hcond
    exact (List.filter_eq_self.mpr fun s _ => decide_eq_true fun h => absurd h hcond).symm

include h hfront

theorem Diverted.line {calls : List InstrId} (hcalls : ∀ i ∈ calls, (q.instr i).kind = .call .none) :
    ∀ x ∈ front ++ calls, (r.instr x).isTerminator = false := by
  intro x hx
  rw [(cut_same hq hcut x).1]
  rcases List.mem_append.mp hx with hx | hx
  · rw [(h.same b x (h.before ▸ List.mem_append_left _ hx)).isTerminator]
    exact hfront x hx
  · rw [Instr.isTerminator, hcalls x hx]
    rfl

include hterm

theorem Diverted.edgesFrom_cut : p.edgesFrom b = (p.instr e).successors ∧
    r.edgesFrom b = [taken] ∧ ∀ c ≠ b, r.edgesFrom c = p.edgesFrom c := by
  obtain ⟨hblock, -, -⟩ := cut_exact hq hcut
  have hsame := cut_same hq hcut
  obtain ⟨calls, hafter, hcalls⟩ := h.after
  refine ⟨edgesFrom_of_exit (straight_append h.before hfront hterm).2, ?_, fun c hc => ?_⟩
  · have hexit : r.exit? b = some new := by
      refine (straight_append ((hblock b).trans hafter) (h.line hq hfront hcut hcalls) ?_).2
      rw [(hsame new).1, Instr.isTerminator, h.branch.1]
      rfl
    rw [edgesFrom_of_exit hexit, (hsame new).2.2.1, Instr.successors, h.branch.1, h.branch.2]
    rfl
  · have hinstrs : (r.block c).instrs = (p.block c).instrs := (hblock c).trans (h.others c hc)
    refine edgesFrom_congr (straight_congr hinstrs fun x hx => ?_).2 fun x hx => ?_
    · rw [(hsame x).1, (h.same c x hx).isTerminator]
    · rw [(hsame x).2.2.1, (h.same c x hx).successors]

section

variable (hedges : (p.instr e).successors = [taken, dropped] ∨
  (p.instr e).successors = [dropped, taken])

include hedges

theorem Diverted.edge_kept (c s : BlockId) : (c ∈ p.edgesFrom s → c ∈ r.edgesFrom s) ↔
    (taken ≠ dropped ∧ c = dropped → s ≠ b) := by
  obtain ⟨hbefore, hafter, hothers⟩ := h.edgesFrom_cut hq hfront hterm hcut
  by_cases hs : s = b
  case neg =>
    rw [hothers s hs]
    exact iff_of_true id fun _ => hs
  subst hs
  have hmem : c ∈ (p.instr e).successors ↔ c = taken ∨ c = dropped := by
    rcases hedges with hedges | hedges
    · simp [hedges]
    · simp [hedges, or_comm]
  rw [hbefore, hafter, hmem, List.mem_singleton]
  constructor
  · rintro hkept ⟨hne, rfl⟩
    exact absurd (hkept (.inr rfl)).symm hne
  · rintro hnever (rfl | rfl)
    · rfl
    · by_contra hne
      exact hnever ⟨fun heq => hne heq.symm, rfl⟩ rfl

theorem Diverted.cut_sheds
    (hplain : ∀ c ∈ (p.func f).blocks, ∀ i ∈ (p.block c).instrs, (p.instr i).Plain) :
    Sheds f p r := by
  obtain ⟨hblock, hfunc, -⟩ := cut_exact hq hcut
  obtain ⟨hbefore, hafter, hothers⟩ := h.edgesFrom_cut hq hfront hterm hcut
  refine ⟨by rw [hfunc, h.func], fun c => ?_, fun c hc i hi hphi => ?_⟩
  · by_cases hcb : c = b
    · rw [hcb, hbefore, hafter]
      rcases hedges with hedges | hedges
      · exact .inr ⟨taken, dropped, hedges, .inl rfl⟩
      · exact .inr ⟨dropped, taken, hedges, .inr rfl⟩
    · exact .inl (hothers c hcb)
  · rw [hblock] at hi
    rw [(cut_same hq hcut i).2.1] at hphi
    have hip : i ∈ (p.block c).instrs := by
      rcases h.stood hi with hi | rfl | hcall
      · exact hi
      · rw [Instr.isPhi, h.branch.1] at hphi
        cases hphi
      · rw [Instr.isPhi, hcall] at hphi
        cases hphi
    have hreads := h.same c i hip
    refine ⟨hip, hreads.isPhi ▸ hphi, ?_⟩
    rw [cut_phiBlocks hq hcut hi (hreads.plain (hplain c hc i hip)) hphi, hreads.phiBlocks]
    exact List.filter_congr fun s _ =>
      decide_eq_decide.mpr (h.edge_kept hq hfront hterm hcut hedges c s).symm

end

theorem Diverted.cut_wellEnded (hp : p.Sound) (he : e ∉ D) (hwell : WellEnded D f p) :
    WellEnded (e :: D) f r := by
  obtain ⟨hblock, hfunc, -⟩ := cut_exact hq hcut
  have hsame := cut_same hq hcut
  obtain ⟨calls, hafter, hcalls⟩ := h.after
  have hblocks : (r.func f).blocks = (p.func f).blocks := by rw [hfunc, h.func]
  refine ⟨fun c hc x hx hout hxterm => ?_, fun c hc x hx => ?_⟩ <;> rw [hblocks] at hc <;>
    rw [hblock] at hx
  · obtain ⟨hne, hxD⟩ := not_or.mp (List.mem_cons.not.mp hout)
    rw [hblock]
    by_cases hcb : c = b
    · subst hcb
      -- what stands behind the old terminator is in `D`
      have hback : back ⊆ D := by
        obtain ⟨front', back', hinstrs, -, hback⟩ :=
          hwell.ends c hc e (h.before ▸ List.mem_append_right _ List.mem_cons_self) he hterm
        obtain ⟨hfront', hback'⟩ := hp.not_mem_beside h.before
        obtain ⟨-, -, rfl⟩ :=
          (List.append_cons_inj_of_notMem hfront' hback').mp (h.before.symm.trans hinstrs)
        exact hback
      have hline := h.line hq hfront hcut hcalls
      rw [hafter] at hx ⊢
      rcases List.mem_append.mp hx with hx | hx
      · rw [hline x hx] at hxterm
        cases hxterm
      rcases List.mem_cons.mp hx with rfl | hx
      · exact ⟨front ++ calls, e :: back, rfl, hline, List.cons_subset_cons e hback⟩
      · exact absurd (hback ((List.mem_cons.mp hx).resolve_left hne)) hxD
    · rw [h.others c hcb] at hx ⊢
      rw [(hsame x).1, (h.same c x hx).isTerminator] at hxterm
      obtain ⟨front', back', hinstrs, hfront', hback⟩ := hwell.ends c hc x hx hxD hxterm
      refine ⟨front', back', hinstrs, fun y hy => ?_,
        List.Subset.trans hback (List.subset_cons_self e D)⟩
      rw [(hsame y).1, (h.same c y (hinstrs ▸ List.mem_append_left _ hy)).isTerminator]
      exact hfront' y hy
  · refine (hsame x).2.2.2 ?_
    rcases h.stood hx with hx | rfl | hcall
    · exact (h.same c x hx).plain (hwell.plain c hc x hx)
    · exact Instr.plain_of_kind (by rw [Instr.isPhi, h.branch.1]) (by simp [h.branch.1])
    · exact Instr.plain_of_kind (by rw [Instr.isPhi, hcall]) (by simp [hcall])

end

/-! ## 4. What goes from behind a terminator -/

theorem Deleted.sameEdges (hdel : Deleted p q a b) {c : BlockId} {i : InstrId}
    (hi : i ∈ (p.block c).instrs) : (p.instr i).SameEdges (q.instr i) :=
  ⟨hdel.kind i, _, Value.toBlock?_substitute rfl rfl, (hdel.instr hi).2⟩

/-- A terminator behind another one takes no edge along. -/
theorem Deleted.sheds {t : InstrId} (hdel : Deleted p q a b) (hp : p.Sound)
    (hbehind : p.Behind t a) (ha : a ∈ (p.block b).instrs) :
    Sheds f p q ∧ (WellEnded (a :: D) f p → WellEnded D f q) := by
  have hfunc : (q.func f).blocks = (p.func f).blocks := by rw [hdel.func]
  have hblock : ∀ c, (q.block c).instrs = (p.block c).instrs.filter (· != a) := by
    intro c
    by_cases hc : c = b
    · rw [hc, hdel.block]
    · rw [hdel.others c hc]
      refine (List.filter_eq_self.mpr fun x hx => bne_iff_ne.mpr ?_).symm
      rintro rfl
      exact hc (Option.some.inj ((hp.mem_instrs.mp hx).symm.trans (hp.mem_instrs.mp ha)))
  refine ⟨sheds_of_same hfunc (fun c => (hdel.kept hp hbehind ha c).1.2) (fun c => ?_)
    fun _ _ hi => hdel.sameEdges hi, fun h => h.shed hfunc hblock fun _ _ hi => hdel.sameEdges hi⟩
  rw [hblock]
  exact List.filter_subset_self _

end Program

end QirProfile
