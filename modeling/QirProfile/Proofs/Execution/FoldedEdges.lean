import QirProfile.Proofs.Execution.FoldedThrough

/-!
# Phis in step with the edges

A phi has an entry for every edge that leads to its block; a terminator that names the block twice
leads there by two edges. Folding takes one edge of two away. If the other one leads elsewhere, the phis
at the end of the first forget the block. If both lead to the same block, nothing is forgotten, and a
phi there is left with an entry too many.
-/

namespace QirProfile

namespace Program

open Replacing

variable {p q : Program} {f : FuncId} {b : BlockId} {id : InstrId} {v : Value}

/-! ## 1. Constants -/

theorem exit_of_filter (hinstrs : (q.block b).instrs = (p.block b).instrs.filter (· != id))
    (hid : (p.instr id).isTerminator = false)
    (hsame : ∀ i ∈ (p.block b).instrs, (q.instr i).isTerminator = (p.instr i).isTerminator) :
    q.exit? b = p.exit? b := by
  unfold exit?
  rw [hinstrs]
  generalize (p.block b).instrs = ids at hsame
  induction ids with
  | nil => rfl
  | cons i ids ih =>
    have hrest := ih fun j hj => hsame j (List.mem_cons_of_mem _ hj)
    by_cases hi : i = id
    · rw [List.filter_cons_of_neg (by simp [hi]), hrest, List.find?_cons_of_neg]
      rw [hi, hid]
      exact Bool.false_ne_true
    · rw [List.filter_cons_of_pos (by simp [hi]), List.find?_cons, List.find?_cons, hrest,
        hsame i List.mem_cons_self]

theorem WellEnded.foldAway (h : WellEnded [] f p) (hp : p.Sound) (hid : p.functionOf? id = some f)
    (hv : p.fold? id = some v) (hq : p.foldAway id v = .ok q) :
    WellEnded [] f q ∧ Sheds f p q := by
  obtain ⟨hlive, rfl⟩ := foldAway_ok.mp hq
  obtain ⟨hterm, -, -, hvalue⟩ := fold?_chooses hv
  have hblock : v.toBlock? = none := by
    rcases hvalue with ⟨bits, n, rfl⟩ | ⟨hkind, hmem⟩
    · rfl
    · obtain ⟨b, hb, hin⟩ := List.mem_flatMap.mp (hp.mem_instrsOf.mpr hid)
      exact (h.plain b hb id hin).values hkind v hmem
  have hframe := sameFrame_replaceUses p (.instr id) v
  have hinstrs : ∀ b, (((p.replaceUses (.instr id) v).dropInstr id).block b).instrs =
      (p.block b).instrs.filter (· != id) := fun b => by
    rw [instrs_dropInstr (hframe.evolves hp).1, (hframe.block b).2.1]
  have hsame : ∀ b, ∀ i ∈ (p.block b).instrs, (p.instr i).SameEdges
      (((p.replaceUses (.instr id) v).dropInstr id).instr i) := by
    intro b i hi
    obtain ⟨hkind, -, hoperands⟩ := same_dropInstr (p.replaceUses (.instr id) v) id i
    refine ⟨hkind.trans (kind_replaceUses ..), Value.substitute (.instr id) v,
      Value.toBlock?_substitute rfl hblock, ?_⟩
    rw [hoperands, instr_replaceUses_live (hp.instr_live hi)]
  have hfunc : (((p.replaceUses (.instr id) v).dropInstr id).func f).blocks =
      (p.func f).blocks := by
    rw [func_dropInstr]
    rfl
  refine ⟨(h.mono (List.nil_subset [id])).shed hfunc hinstrs hsame,
    sheds_of_same hfunc (fun b => ?_) (fun b => ?_) hsame⟩
  · exact exit_of_filter (hinstrs b) hterm fun i hi => (hsame b i hi).isTerminator
  · rw [hinstrs]
    exact List.filter_subset_self _

theorem WellEnded.foldConstants (h : WellEnded [] f p) (hp : p.Sound) :
    ∃ q n, p.foldConstants f = .ok (q, n) ∧ q.Sound ∧ WellEnded [] f q ∧ Sheds f p q := by
  obtain ⟨q, n, hq, -⟩ := foldConstants_ok p f
  refine ⟨q, n, hq, foldRounds_carries
    (P := fun q => q.Sound ∧ WellEnded [] f q ∧ Sheds f p q) (fun q hq => hq.1)
    (fun q r id v hq hid hv hr => ?_) ⟨hp, h, .refl f p⟩ hq⟩
  obtain ⟨hwell, hsheds⟩ := hq.2.1.foldAway hq.1 hid hv hr
  exact ⟨(foldAway_spares hq.1 hid hr).1, hwell, hq.2.2.trans hsheds⟩

theorem WellEnded.foldControlFlow (h : WellEnded [] f p) (hp : p.Sound) (e : Bool) :
    ∃ n q, foldControlFlow (controlFlowRules e) f p = .ok n q ∧ q.Sound ∧ Sheds f p q := by
  have hconstants : ∀ q, q.Sound ∧ WellEnded [] f q ∧ Sheds f p q → ∃ r n,
      q.foldConstants f = .ok (r, n) ∧ r.Sound ∧ WellEnded [] f r ∧ Sheds f p r := by
    rintro q ⟨hq, hwell, hsheds⟩
    obtain ⟨r, n, hfold, hr, hwell', hsheds'⟩ := hwell.foldConstants hq
    exact ⟨r, n, hfold, hr, hwell', hsheds.trans hsheds'⟩
  have hround : ∀ q, q.Sound ∧ WellEnded [] f q ∧ Sheds f p q → ∃ schedule q' r,
      scheduleAll (controlFlowRules e) (q.instrsOf f) q = .ok schedule q' ∧
        carryOut schedule q' = .ok schedule.length r ∧
          r.Sound ∧ WellEnded [] f r ∧ Sheds f p r := by
    rintro q ⟨hq, hwell, hsheds⟩
    obtain ⟨schedule, q', r, -, hschedule, hcarry, -, -, -, hround⟩ :=
      round_succeeds hq hwell.endsAlone e
    obtain ⟨hwell', hsheds'⟩ := hround hwell
    obtain ⟨htweaks, -⟩ := round_tweaks hq hschedule hcarry
    exact ⟨schedule, q', r, hschedule, hcarry, (htweaks.spares hq).1, hwell', hsheds.trans hsheds'⟩
  obtain ⟨n, q, hrounds, hq, -, hsheds⟩ := controlFlowRounds_carry hconstants hround
    ⟨hp, h, .refl f p⟩ ((p.instrsOf f).length + 1)
  have hget : (get : Compile Program) p = .ok p p := rfl
  refine ⟨n, q, ?_, hq, hsheds⟩
  unfold QirProfile.foldControlFlow
  rw [bind_of_ok hget]
  exact hrounds

/-! ## 2. Entries and edges -/

/-- The blocks of a function from which control may come to a block, once for every edge. -/
def edgesInto (p : Program) (f : FuncId) (b : BlockId) : List BlockId :=
  (p.func f).blocks.flatMap fun s => List.replicate ((p.edgesFrom s).count b) s

/-- Every phi of the function has an entry for each edge to its block, and no other entry. -/
def EdgeExact (p : Program) (f : FuncId) : Prop :=
  ∀ b ∈ (p.func f).blocks, ∀ i ∈ (p.block b).instrs, (p.instr i).isPhi = true →
    (p.instr i).phiBlocks.Perm (p.edgesInto f b)

/-- No phi and no `select` of the function chooses from blocks. -/
def NoBlockValues (p : Program) (f : FuncId) : Prop :=
  ∀ i ∈ p.instrsOf f, (p.instr i).isPhi = true ∨ (p.instr i).kind = .select →
    ∀ v ∈ (p.instr i).operands, v.toBlock? = none

/-- Two edges from one block to another have become one. -/
def Merges (p q : Program) (s b : BlockId) : Prop :=
  p.edgesFrom s = [b, b] ∧ q.edgesFrom s = [b]

instance (p : Program) (f : FuncId) : Decidable (p.EdgeExact f) :=
  inferInstanceAs (Decidable (∀ b ∈ (p.func f).blocks, ∀ i ∈ (p.block b).instrs,
    (p.instr i).isPhi = true → (p.instr i).phiBlocks.Perm (p.edgesInto f b)))

instance (p : Program) (f : FuncId) : Decidable (p.NoBlockValues f) :=
  inferInstanceAs (Decidable (∀ i ∈ p.instrsOf f, (p.instr i).isPhi = true ∨
    (p.instr i).kind = .select → ∀ v ∈ (p.instr i).operands, v.toBlock? = none))

theorem count_edgesInto (hp : p.Sound) (f : FuncId) (b s : BlockId) :
    (p.edgesInto f b).count s = if s ∈ (p.func f).blocks then (p.edgesFrom s).count b else 0 := by
  have hnodup := hp.nodup_blocks f
  unfold edgesInto
  generalize (p.func f).blocks = bs at hnodup
  induction bs with
  | nil => rfl
  | cons c bs ih =>
    obtain ⟨hc, hnodup⟩ := List.nodup_cons.mp hnodup
    rw [List.flatMap_cons, List.count_append, ih hnodup, List.count_replicate]
    by_cases hs : c = s
    · subst hs
      simp [hc]
    · simp [hs, Ne.symm hs]

theorem Narrows.count_iff {ls ls' : List BlockId} (h : Narrows ls ls') (b : BlockId) :
    (if b ∈ ls → b ∈ ls' then ls.count b else 0) = ls'.count b ↔ ¬ (ls = [b, b] ∧ ls' = [b]) := by
  rcases h with rfl | ⟨x, y, rfl, rfl | rfl⟩
  · refine iff_of_true (if_pos id) fun ⟨h, h'⟩ => ?_
    rw [h] at h'
    cases h'
  all_goals
    by_cases hx : x = b <;> by_cases hy : y = b <;> simp [hx, hy, eq_comm (a := b)]

theorem Sheds.edgeExact_iff (h : Sheds f p q) (hp : p.Sound) (hq : q.Sound)
    (hexact : p.EdgeExact f) : q.EdgeExact f ↔ ∀ s ∈ (p.func f).blocks, ∀ b ∈ (p.func f).blocks,
      Merges p q s b → ∀ i ∈ (q.block b).instrs, (q.instr i).isPhi = false := by
  have hone : ∀ b ∈ (p.func f).blocks, ∀ i ∈ (q.block b).instrs, (q.instr i).isPhi = true →
      ((q.instr i).phiBlocks.Perm (q.edgesInto f b) ↔
        ∀ s ∈ (p.func f).blocks, ¬ Merges p q s b) := by
    intro b hb i hi hphi
    obtain ⟨hip, hphip, hblocks⟩ := h.phis b hb i hi hphi
    have hbefore := hexact b hb i hip hphip
    rw [List.perm_iff_count]
    refine forall_congr' fun s => ?_
    have hcount : (q.instr i).phiBlocks.count s =
        if b ∈ p.edgesFrom s → b ∈ q.edgesFrom s then (p.edgesInto f b).count s else 0 := by
      rw [hblocks, ← hbefore.count_eq s]
      split
      · rename_i hkept
        exact List.count_filter (decide_eq_true hkept)
      · rename_i hgone
        refine List.count_eq_zero.mpr fun hmem => hgone ?_
        exact of_decide_eq_true (List.mem_filter.mp hmem).2
    rw [hcount, count_edgesInto hp, count_edgesInto hq, h.blocks]
    by_cases hs : s ∈ (p.func f).blocks
    · simp only [hs, if_true, true_imp_iff]
      exact (h.edges s).count_iff b
    · simp [hs]
  constructor
  · intro hafter s hs b hb hmerges i hi
    refine Bool.eq_false_iff.mpr fun hphi => ?_
    exact (hone b hb i hi hphi).mp (hafter b (h.blocks ▸ hb) i hi hphi) s hs hmerges
  · intro hnone b hb i hi hphi
    have hb' : b ∈ (p.func f).blocks := h.blocks ▸ hb
    refine (hone b hb' i hi hphi).mpr fun s hs hmerges => ?_
    rw [hnone s hs b hb' hmerges i hi] at hphi
    cases hphi

/-! ## 3. Folding as a whole -/

theorem wellEnded_of_fits (hp : p.Sound) (hfits : ∀ b ∈ (p.func f).blocks, p.blockProblems f b = [])
    (hvalues : p.NoBlockValues f) : WellEnded [] f p := by
  refine ⟨fun b hb i hi _ hterm => ?_, fun b hb i hi => ⟨fun hphi => ?_, ?_⟩⟩
  · obtain ⟨front, hinstrs, hfront⟩ := endsAlone_of_fits hp hfits b hb i hi hterm
    exact ⟨front, [], hinstrs, hfront, List.nil_subset _⟩
  · obtain ⟨blocks, hkind⟩ := Instr.isPhi_iff.mp hphi
    have hblock := blockProblems_eq_nil.mp (hfits b hb)
    rw [Instr.phiBlocks, hkind]
    exact ((hblock.instrs i hi).incoming blocks hkind).1
  · exact hvalues i (List.mem_flatMap.mpr ⟨b, hb, hi⟩)

/-- Phis stay in step with the edges just if no two edges between the same blocks become one in
    front of a phi. -/
theorem foldControlFlow_edgeExact (hp : p.Sound)
    (hfits : ∀ b ∈ (p.func f).blocks, p.blockProblems f b = []) (hvalues : p.NoBlockValues f)
    (hexact : p.EdgeExact f) (assumeNoExcept : Bool) :
    ∃ n q, foldControlFlow (controlFlowRules assumeNoExcept) f p = .ok n q ∧ Sheds f p q ∧
      (q.EdgeExact f ↔ ∀ s ∈ (p.func f).blocks, ∀ b ∈ (p.func f).blocks,
        Merges p q s b → ∀ i ∈ (q.block b).instrs, (q.instr i).isPhi = false) := by
  obtain ⟨n, q, hrun, hq, hsheds⟩ :=
    (wellEnded_of_fits hp hfits hvalues).foldControlFlow hp assumeNoExcept
  exact ⟨n, q, hrun, hsheds, hsheds.edgeExact_iff hp hq hexact⟩

theorem foldControlFlow_edgeExact_settled : ∃ n q,
    foldControlFlow (controlFlowRules true) ⟨1⟩ settled = .ok n q ∧ q.EdgeExact ⟨1⟩ ∧
      (q.instr ⟨3⟩).erased = false ∧ (q.instr ⟨3⟩).phiBlocks = [] := by
  obtain ⟨n, q, hrun, -, hiff⟩ := foldControlFlow_edgeExact (p := settled) (f := ⟨1⟩)
    (by decide +kernel) (by decide +kernel) (by decide +kernel) (by decide +kernel) true
  obtain ⟨m, q', hsame, hafter⟩ := exists_ok
    (r := foldControlFlow (controlFlowRules true) ⟨1⟩ settled)
    (P := fun q => (q.instr ⟨3⟩).erased = false ∧ (q.instr ⟨3⟩).phiBlocks = [])
    (by decide +kernel)
  have hapart : ∀ s ∈ (settled.func ⟨1⟩).blocks, ∀ b ∈ (settled.func ⟨1⟩).blocks,
      settled.edgesFrom s ≠ [b, b] := by decide +kernel
  rw [hrun] at hsame
  cases hsame
  exact ⟨n, q, hrun, hiff.mpr fun s hs b hb hmerges => absurd hmerges.1 (hapart s hs b hb), hafter⟩

/-- A branch on a constant, both of whose targets are the block `done`, and a phi there with two
    entries for its block. -/
def doubled : Program where
  name := "doubled"
  functions := #[⟨"Main", .int 64, [⟨some "c", .int 1⟩], false, none, none, [],
    [⟨0⟩, ⟨1⟩, ⟨2⟩, ⟨3⟩], false⟩]
  blocks := #[
    ⟨some "entry", some ⟨0⟩, [⟨0⟩], false⟩,
    ⟨some "a", some ⟨0⟩, [⟨1⟩], false⟩,
    ⟨some "b", some ⟨0⟩, [⟨2⟩], false⟩,
    ⟨some "done", some ⟨0⟩, [⟨3⟩, ⟨4⟩], false⟩]
  instrs := #[
    ⟨.br, .void, [.arg ⟨0⟩ 0, .block ⟨2⟩, .block ⟨1⟩], none, some ⟨0⟩, false⟩,
    ⟨.br, .void, [.int 1 (-1), .block ⟨3⟩, .block ⟨3⟩], none, some ⟨1⟩, false⟩,
    ⟨.br, .void, [.block ⟨3⟩], none, some ⟨2⟩, false⟩,
    ⟨.phi [⟨1⟩, ⟨1⟩, ⟨2⟩], .int 64, [.int 64 1, .int 64 1, .int 64 2], some "r", some ⟨3⟩, false⟩,
    ⟨.ret, .void, [.instr ⟨3⟩], none, some ⟨3⟩, false⟩]

/-- Both targets of a branch are one block: an edge goes, and the phi keeps its entry. -/
theorem foldControlFlow_entry_left : doubled.Sound ∧ doubled.verify = .ok () ∧
    doubled.EdgeExact ⟨0⟩ ∧ doubled.NoBlockValues ⟨0⟩ ∧
      ∃ n q, foldControlFlow (controlFlowRules false) ⟨0⟩ doubled = .ok n q ∧
        q.edgesFrom ⟨1⟩ = [⟨3⟩] ∧ (q.instr ⟨3⟩).phiBlocks = [⟨1⟩, ⟨1⟩, ⟨2⟩] ∧
          ¬ q.EdgeExact ⟨0⟩ :=
  ⟨by decide +kernel, by rfl, by decide +kernel, by decide +kernel, exists_ok (by decide +kernel)⟩

end Program

end QirProfile
