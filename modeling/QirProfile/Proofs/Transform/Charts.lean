import QirProfile.Proofs.Tweaks
import QirProfile.Proofs.Transform.Expand

/-!
# What a walk knows of the path

While calls get copies of their own, a walk knows part of the execution path. A `Chart` says how far it
has come: which functions it has walked, which blocks it has queued, and where it has not looked yet.
`Charted` says what holds at any time of a program with copies from the number `n` on:

* nothing refers to a copy but one call, in a block that has been passed (`callers`, `unique`);
* where control goes from the blocks that have been passed is known, and what is called there has
  been walked (`passed`), unless the walk is still waiting for the instruction.

Functions that the walk has not come to may change (`Charted.leave`), so copies can be made and folded,
and functions that are spent can go (`Charted.turn`).
-/

namespace QirProfile

open Program

/-- How far a walk has come. -/
structure Chart where
  walked : List FuncId
  /-- What is called already and will be walked next. -/
  next : List FuncId := []
  /-- Copies that nothing calls yet. -/
  uncalled : List FuncId := []
  /-- All blocks that have been queued. -/
  seen : List BlockId
  /-- Those that are still in a queue. -/
  ahead : List BlockId
  /-- Instructions that have not been visited, and those that are to go. -/
  waiting : List InstrId

/-- Where control goes from an instruction has been seen, and what it calls by name is walked, or has
    no body. -/
structure LeadsOn (γ : Chart) (p : Program) (i : Instr) : Prop where
  taken : ∀ c ∈ i.taken, c ∈ γ.seen
  callee : ∀ k, i.calledFunction? = some k → k ∈ γ.walked ∨ k ∈ γ.next ∨
    k.index < p.functions.size ∧ (p.func k).blocks = []

/-- A chart is true of a program with copies from `n` on and the entry points `entries`. -/
structure Charted (n : Nat) (entries : List FuncId) (γ : Chart) (p : Program) : Prop where
  enclosed : p.Enclosed
  old : n ≤ p.functions.size
  walked : ∀ f ∈ γ.walked, (p.func f).erased = false ∧ (f ∈ entries ∨ n ≤ f.index)
  copies : ∀ k : FuncId, n ≤ k.index → k.index < p.functions.size →
    (p.func k).erased = false ∧ (p.func k).blocks ≠ [] ∧ (k ∈ γ.uncalled ∨ ∃ f i,
      (p.func f).erased = false ∧ p.functionOf? i = some f ∧
        (p.instr i).calledFunction? = some k)
  callers : ∀ f i k, (p.func f).erased = false → p.functionOf? i = some f →
    .func k ∈ (p.instr i).operands → n ≤ k.index →
    (p.instr i).calledFunction? = some k ∧ k ∉ γ.uncalled ∧ i ∉ γ.waiting ∧
      ∃ b ∈ γ.seen, b ∉ γ.ahead ∧ (p.instr i).parent = some b
  unique : ∀ f g i j k, (p.func f).erased = false → (p.func g).erased = false →
    p.functionOf? i = some f → p.functionOf? j = some g → .func k ∈ (p.instr i).operands →
    .func k ∈ (p.instr j).operands → n ≤ k.index → i = j
  waiting : ∀ i ∈ γ.waiting, i.index < p.instrs.size
  entered : ∀ f ∈ γ.walked, ∀ b, (p.func f).entryBlock? = some b → b ∈ γ.seen
  placed : ∀ b ∈ γ.seen, ∃ f ∈ γ.walked, (p.block b).parent = some f
  passed : ∀ b ∈ γ.seen, b ∉ γ.ahead → ∀ i ∈ (p.block b).instrs, i ∉ γ.waiting →
    LeadsOn γ p (p.instr i)

namespace Charted

variable {n : Nat} {entries : List FuncId} {γ : Chart} {p q : Program}
  {V F U : List FuncId} {S A : List BlockId} {X : List InstrId} {f g c : FuncId}

theorem mem_walked (h : Charted n entries γ p) {i : InstrId} {k : FuncId}
    (hf : (p.func f).erased = false) (hi : p.functionOf? i = some f)
    (hk : .func k ∈ (p.instr i).operands) (hn : n ≤ k.index) : f ∈ γ.walked := by
  obtain ⟨-, -, -, b, hb, -, hparent⟩ := h.callers f i k hf hi hk hn
  obtain ⟨g, hg, hbg⟩ := h.placed b hb
  have hi' : p.functionOf? i = some g := Option.bind_eq_some_iff.mpr ⟨b, hparent, hbg⟩
  obtain rfl := Option.some.inj (hi.symm.trans hi')
  exact hg

/-! ## 1. Changes elsewhere -/

theorem leave {K : FuncId → Prop} (h : Charted n entries γ p) (hl : Leaves K p q)
    (hq : q.Enclosed) (hK : ∀ f ∈ γ.walked, ¬ K f)
    (hcopies : ∀ k : FuncId, n ≤ k.index → q.func k = p.func k)
    (hlow : ∀ f i k, K f → (q.func f).erased = false → q.functionOf? i = some f →
      .func k ∈ (q.instr i).operands → k.index < n) : Charted n entries γ q := by
  have hp := h.enclosed.sound
  -- what refers to a copy did so before, in a function that is left alone
  have hback : ∀ {f i k}, (q.func f).erased = false → q.functionOf? i = some f →
      .func k ∈ (q.instr i).operands → n ≤ k.index → ¬ K f ∧ (p.func f).erased = false ∧
        p.functionOf? i = some f ∧ .func k ∈ (p.instr i).operands := by
    intro f i k hf hi hk hn
    have hKf : ¬ K f := fun hKf => absurd (hlow f i k hKf hf hi hk) (Nat.not_lt.mpr hn)
    have hi' := hl.functionOf_back hp hq.sound hKf hi
    rw [hl.func f hKf] at hf
    exact ⟨hKf, hf, hi', (hl.reads f i hKf hf hi').funcs k hk⟩
  refine ⟨hq, hl.functions ▸ h.old, fun f hf => ?_, fun k hn hk => ?_, fun f i k hf hi hk hn => ?_,
    fun f g i j k hf hg hi hj hik hjk hn => ?_, fun i hi => ?_, fun f hf b hb => ?_,
    fun b hb => ?_, fun b hb hout i hi hnot => ?_⟩
  · rw [hl.func f (hK f hf)]
    exact h.walked f hf
  · rw [hl.functions] at hk
    obtain ⟨hlive, hbody, hcall⟩ := h.copies k hn hk
    rw [hcopies k hn]
    refine ⟨hlive, hbody, hcall.imp_right ?_⟩
    rintro ⟨f, i, hf, hi, hik⟩
    have hKf := hK f (h.mem_walked hf hi (Instr.mem_of_calledFunction? hik) hn)
    refine ⟨f, i, by rwa [hl.func f hKf], hl.spares.functionOf hKf hi, ?_⟩
    rw [(hl.reads f i hKf hf hi).callee]
    exact hik
  · obtain ⟨hKf, hf', hi', hk'⟩ := hback hf hi hk hn
    obtain ⟨hcall, hcalled, hnot, b, hb, hout, hparent⟩ := h.callers f i k hf' hi' hk' hn
    refine ⟨?_, hcalled, hnot, b, hb, hout, (hl.spares.instrOf hKf hi').trans hparent⟩
    rw [(hl.reads f i hKf hf' hi').callee]
    exact hcall
  · obtain ⟨-, hf', hi', hik'⟩ := hback hf hi hik hn
    obtain ⟨-, hg', hj', hjk'⟩ := hback hg hj hjk hn
    exact h.unique f g i j k hf' hg' hi' hj' hik' hjk' hn
  · exact Nat.lt_of_lt_of_le (h.waiting i hi) hl.spares.buries.instrs
  · rw [hl.func f (hK f hf)] at hb
    exact h.entered f hf b hb
  · obtain ⟨f, hf, hparent⟩ := h.placed b hb
    exact ⟨f, hf, hl.spares.blockOf (hK f hf) hparent⟩
  · obtain ⟨f, hf, hparent⟩ := h.placed b hb
    rw [hl.block f b (hK f hf) hparent] at hi
    have hif : p.functionOf? i = some f := hp.functionOf_of_mem (hp.mem_blocks.mpr hparent) hi
    have hreads := hl.reads f i (hK f hf) (h.walked f hf).1 hif
    obtain ⟨htaken, hcallee⟩ := h.passed b hb hout i hi hnot
    refine ⟨hreads.taken ▸ htaken, fun k hk => ?_⟩
    rw [hreads.callee] at hk
    refine (hcallee k hk).imp_right fun hk => hk.imp_right fun ⟨hlt, hnone⟩ => ?_
    exact ⟨hl.functions ▸ hlt, hl.bodies k hnone⟩

theorem keep (h : Charted n entries γ p) (hl : Leaves (fun _ => False) p q) (hq : q.Enclosed) :
    Charted n entries γ q :=
  h.leave hl hq (fun _ _ => id) (fun k _ => hl.func k id) fun _ _ _ hK => hK.elim

theorem fold {e : Bool} {m : Nat} (h : Charted n entries γ p) (hc : (p.func c).erased = false)
    (hout : c ∉ γ.walked)
    (hfold : foldControlFlow (Replacing.controlFlowRules e) c p = .ok m q) :
    Charted n entries γ q ∧ Leaves (· = c) p q ∧ ∀ f, q.func f = p.func f := by
  have htweaks := foldControlFlow_tweaks h.enclosed.sound hfold
  obtain ⟨hq, hl⟩ := htweaks.enclosed h.enclosed
  refine ⟨h.leave hl hq ?_ (fun k _ => htweaks.func k) ?_, hl, htweaks.func⟩
  · rintro f hf rfl
    exact hout hf
  · rintro f i k rfl hf hi hk
    obtain ⟨j, hj, hjk⟩ := htweaks.refersTo_back ⟨i, hi, hk⟩
    refine Nat.not_le.mp fun hn => hout (h.mem_walked hc hj hjk hn)

theorem dropFunction (h : Charted n entries γ p) (hlive : (p.func g).erased = false)
    (hout : g ∉ γ.walked) (hg : g.index < n) : Charted n entries γ (p.dropFunction g) := by
  refine h.leave (leaves_dropFunction h.enclosed.sound) (h.enclosed.dropFunction hlive) ?_ ?_ ?_
  · rintro f hf rfl
    exact hout hf
  · intro k hn
    refine func_dropFunction h.enclosed.sound ?_
    rintro rfl
    omega
  · rintro f i k rfl hf
    rw [func_dropFunction_self hlive] at hf
    cases hf

/-! ## 2. New copies and calls -/

theorem withCopy {constants : List (Nat × Value)} (h : Charted n entries γ p)
    (hlive : (p.func g).erased = false) (hout : g ∉ γ.walked) (hbody : (p.func g).blocks ≠ [])
    (hconstants : ∀ c ∈ constants, ∃ bits value, c.2 = .int bits value) :
    Charted n entries { γ with uncalled := ⟨p.functions.size⟩ :: γ.uncalled }
      (p.withCopy g constants) := by
  have hp := h.enclosed.sound
  have hs : Spares (fun _ => False) p (p.withCopy g constants) := spares_withCopy hp
  have hsize : (p.withCopy g constants).functions.size = p.functions.size + 1 := Array.size_push ..
  -- what refers to a copy did so before
  have hback : ∀ {f i k}, ((p.withCopy g constants).func f).erased = false →
      (p.withCopy g constants).functionOf? i = some f →
      .func k ∈ ((p.withCopy g constants).instr i).operands → n ≤ k.index →
      (p.func f).erased = false ∧ p.functionOf? i = some f ∧
        (p.withCopy g constants).instr i = p.instr i := by
    intro f i k hf hi hk hn
    rcases stands_withCopy hp hi with ⟨hi', hfunc, hsame⟩ | ⟨rfl, j, hj, hcopy⟩
    · exact ⟨hfunc ▸ hf, hi', hsame⟩
    · rw [hcopy] at hk
      obtain ⟨w, hw, hwk⟩ := List.mem_map.mp hk
      rw [func_of_value_copyRenaming hconstants hwk] at hw
      exact absurd (h.mem_walked hlive hj hw hn) hout
  have hold : ∀ {f}, (p.func f).erased = false → (p.withCopy g constants).func f = p.func f :=
    fun hf => func_withCopy_old (func_lt_of_live hf)
  have hinstr : ∀ {f i}, p.functionOf? i = some f →
      (p.withCopy g constants).instr i = p.instr i := fun hi =>
    instr_withCopy_old (instr_lt_of_live (hp.live_of_functionOf hi))
  refine ⟨h.enclosed.withCopy hlive hconstants, hsize ▸ Nat.le_succ_of_le h.old, fun f hf => ?_,
    fun k hn hk => ?_, fun f i k hf hi hk hn => ?_, fun f g' i j k hf hg hi hj hik hjk hn => ?_,
    fun i hi => ?_, fun f hf b hb => ?_, fun b hb => ?_, fun b hb hout' i hi hnot => ?_⟩
  · rw [hold (h.walked f hf).1]
    exact h.walked f hf
  · by_cases hnew : k.index = p.functions.size
    · rw [func_withCopy, if_pos hnew]
      refine ⟨hlive, fun hnil => hbody (List.map_eq_nil_iff.mp hnil), .inl ?_⟩
      rw [show k = ⟨p.functions.size⟩ from by rw [← hnew]]
      exact List.mem_cons_self
    · rw [hsize] at hk
      obtain ⟨hk₁, hk₂, hk₃⟩ := h.copies k hn (by omega)
      rw [hold hk₁]
      refine ⟨hk₁, hk₂, hk₃.imp (List.mem_cons_of_mem _) ?_⟩
      rintro ⟨f, i, hf, hi, hik⟩
      exact ⟨f, i, by rwa [hold hf], functionOf_withCopy_old hi, by rwa [hinstr hi]⟩
  · obtain ⟨hf', hi', hsame⟩ := hback hf hi hk hn
    rw [hsame] at hk ⊢
    obtain ⟨hcall, hcalled, hrest⟩ := h.callers f i k hf' hi' hk hn
    refine ⟨hcall, fun hmem => ?_, hrest⟩
    rcases List.mem_cons.mp hmem with rfl | hmem
    · have hlt : p.functions.size < p.functions.size := h.enclosed.operands f i hf' hi' _ hk
      exact Nat.lt_irrefl _ hlt
    · exact hcalled hmem
  · obtain ⟨hf', hi', hsame⟩ := hback hf hi hik hn
    obtain ⟨hg', hj', hsame'⟩ := hback hg hj hjk hn
    exact h.unique f g' i j k hf' hg' hi' hj' (hsame ▸ hik) (hsame' ▸ hjk) hn
  · exact Nat.lt_of_lt_of_le (h.waiting i hi) hs.buries.instrs
  · rw [hold (h.walked f hf).1] at hb
    exact h.entered f hf b hb
  · obtain ⟨f, hf, hparent⟩ := h.placed b hb
    exact ⟨f, hf, parent_withCopy_old hparent⟩
  · obtain ⟨f, hf, hparent⟩ := h.placed b hb
    rw [block_withCopy_old (block_lt_of_parent hparent)] at hi
    have hif : p.functionOf? i = some f := hp.functionOf_of_mem (hp.mem_blocks.mpr hparent) hi
    rw [hinstr hif]
    obtain ⟨htaken, hcallee⟩ := h.passed b hb hout' i hi hnot
    refine ⟨htaken, fun k hk => (hcallee k hk).imp_right fun hk => hk.imp_right ?_⟩
    rintro ⟨hlt, hnone⟩
    exact ⟨hsize ▸ Nat.lt_succ_of_lt hlt, by rwa [func_withCopy_old hlt]⟩

theorem insert {d : Edit.Draft} {id call : InstrId} {b : BlockId} {front back : List InstrId}
    {marker : TailMarker} {args : List Value}
    (h : Charted n entries ⟨V, [], [c], S, A, X⟩ p)
    (hins : Inserted p q d id call b front back) (hid : p.functionOf? id = some f) (hf : f ∈ V)
    (hX : id ∈ X) (hb : b ∈ S) (hA : b ∉ A) (hc : c.index < p.functions.size)
    (hkind : d.kind = .call marker) (hoperands : d.operands = args ++ [.func c])
    (hargs : args ⊆ (p.instr id).operands) :
    Charted n entries ⟨V, [c], [], S, A, X⟩ q := by
  have hp := h.enclosed.sound
  have hlive := (h.walked f hf).1
  have hparent : (p.block b).parent = some f := Replacing.parent_of_anchored hins hid
  obtain ⟨name, hmade⟩ := hins.made
  have hnew := hins.functionOf_new hparent
  have hcall : (q.instr call).calledFunction? = some c := by
    rw [hmade]
    simp [Instr.calledFunction?, Instr.callee?, Instr.isCall, hkind, hoperands, Value.toFunc?]
  have htaken : (q.instr call).taken = [] := by
    rw [hmade]
    simp [Instr.taken, hkind]
  have hfresh : call ∉ X := by
    intro hmem
    have hlt := h.waiting call hmem
    rw [hins.fresh] at hlt
    exact Nat.lt_irrefl _ hlt
  -- the new call refers to one copy, and the arguments to none
  have hrefers : ∀ k, .func k ∈ (q.instr call).operands → n ≤ k.index → k = c := by
    intro k hk hn
    rw [hmade, hoperands] at hk
    rcases List.mem_append.mp hk with hk | hk
    · exact absurd hX (h.callers f id k hlive hid (hargs hk) hn).2.2.1
    · exact Value.func.inj (List.mem_singleton.mp hk)
  have hhome : ∀ v ∈ d.operands, AtHome p f v := by
    intro v hv
    rw [hoperands] at hv
    rcases List.mem_append.mp hv with hv | hv
    · exact h.enclosed.operands f id hlive hid v (hargs hv)
    · rw [List.mem_singleton.mp hv]
      exact hc
  have hold : ∀ {g i}, i ≠ call → q.functionOf? i = some g → p.functionOf? i = some g :=
    fun hne hi => (hins.functionOf hne).symm.trans hi
  refine ⟨hins.enclosed h.enclosed hparent fun _ => hhome,
    hins.functions ▸ h.old, fun g hg => hins.func g ▸ h.walked g hg, fun k hn hk => ?_,
    fun g i k hg hi hk hn => ?_, fun g g' i j k hg hg' hi hj hik hjk hn => ?_, fun i hi => ?_,
    fun g hg a ha => h.entered g hg a (hins.func g ▸ ha), fun a ha => ?_,
    fun a ha hout i hi hnot => ?_⟩
  · rw [hins.functions] at hk
    rw [hins.func]
    obtain ⟨hk₁, hk₂, hk₃⟩ := h.copies k hn hk
    refine ⟨hk₁, hk₂, .inr ?_⟩
    rcases hk₃ with hk₃ | ⟨g, i, hg, hi, hik⟩
    · rw [List.mem_singleton.mp hk₃]
      exact ⟨f, call, by rwa [hins.func], hnew, hcall⟩
    · have hne := hins.ne_new (instr_lt_of_live (hp.live_of_functionOf hi))
      exact ⟨g, i, by rwa [hins.func], (hins.functionOf hne).trans hi, by rwa [hins.instr i hne]⟩
  · rw [hins.func] at hg
    by_cases hne : i = call
    · subst hne
      obtain rfl := hrefers k hk hn
      refine ⟨hcall, List.not_mem_nil, hfresh, b, hb, hA, ?_⟩
      rw [hmade]
    · rw [hins.instr i hne] at hk ⊢
      obtain ⟨h₁, -, h₃⟩ := h.callers g i k hg (hold hne hi) hk hn
      exact ⟨h₁, List.not_mem_nil, h₃⟩
  · rw [hins.func] at hg hg'
    -- nothing else refers to the copy that is called now
    have hother : ∀ {g i}, (p.func g).erased = false → i ≠ call → q.functionOf? i = some g →
        .func k ∈ (q.instr i).operands → k ≠ c := by
      rintro g i hg hne hi hik rfl
      rw [hins.instr i hne] at hik
      exact (h.callers g i k hg (hold hne hi) hik hn).2.1 (List.mem_singleton_self k)
    by_cases hi' : i = call <;> by_cases hj' : j = call
    · rw [hi', hj']
    · exact absurd (hrefers k (hi' ▸ hik) hn) (hother hg' hj' hj hjk)
    · exact absurd (hrefers k (hj' ▸ hjk) hn) (hother hg hi' hi hik)
    · rw [hins.instr i hi'] at hik
      rw [hins.instr j hj'] at hjk
      exact h.unique g g' i j k hg hg' (hold hi' hi) (hold hj' hj) hik hjk hn
  · have hlt := h.waiting i hi
    rw [hins.instrs]
    exact Nat.lt_succ_of_lt hlt
  · obtain ⟨g, hg, ha'⟩ := h.placed a ha
    exact ⟨g, hg, (hins.parent a).trans ha'⟩
  · have hcases : i = call ∨ i ∈ (p.block a).instrs := by
      by_cases hab : a = b
      · subst hab
        rw [hins.after] at hi
        rw [hins.before]
        simp only [List.mem_append, List.mem_cons] at hi ⊢
        tauto
      · rw [hins.others a hab] at hi
        exact .inr hi
    rcases hcases with rfl | hi
    · refine ⟨by rw [htaken]; exact fun _ h => absurd h List.not_mem_nil, fun k hk => .inr (.inl ?_)⟩
      obtain rfl := Option.some.inj (hcall.symm.trans hk)
      exact List.mem_singleton_self _
    · have hne := hins.ne_new (instr_lt_of_live (hp.instr_live hi))
      rw [hins.instr i hne]
      obtain ⟨h₁, h₂⟩ := h.passed a ha hout i hi hnot
      refine ⟨h₁, fun k hk => (h₂ k hk).imp_right fun hk => .inr ?_⟩
      rw [hins.func, hins.functions]
      exact hk.resolve_left List.not_mem_nil

theorem dropInstr {id : InstrId} (h : Charted n entries γ p) (hX : id ∈ γ.waiting)
    (hlive : (p.instr id).erased = false) : Charted n entries γ (p.dropInstr id) := by
  have hp := h.enclosed.sound
  have hlt := instr_lt_of_live hlive
  have hback : ∀ {f i}, (p.dropInstr id).functionOf? i = some f →
      p.functionOf? i = some f ∧ (p.dropInstr id).instr i = p.instr i := by
    intro f i hi
    have hne : id ≠ i := by
      rintro rfl
      rw [not_functionOf_dropInstr hlt] at hi
      cases hi
    rw [functionOf_dropInstr hne] at hi
    exact ⟨hi, instr_dropInstr_ne hne⟩
  have hparent : ∀ b, ((p.dropInstr id).block b).parent = (p.block b).parent := by
    intro b
    rw [block_dropInstr]
    split <;> rfl
  refine ⟨h.enclosed.dropInstr hlive, by rw [(sizes_dropInstr p id).1]; exact h.old,
    fun f hf => by rw [func_dropInstr]; exact h.walked f hf, fun k hn hk => ?_,
    fun f i k hf hi hk hn => ?_, fun f g i j k hf hg hi hj hik hjk hn => ?_,
    fun i hi => by rw [(sizes_dropInstr p id).2.2]; exact h.waiting i hi,
    fun f hf b hb => h.entered f hf b (by rwa [func_dropInstr] at hb), fun b hb => ?_,
    fun b hb hout i hi hnot => ?_⟩
  · rw [(sizes_dropInstr p id).1] at hk
    rw [func_dropInstr]
    obtain ⟨hk₁, hk₂, hk₃⟩ := h.copies k hn hk
    refine ⟨hk₁, hk₂, hk₃.imp_right ?_⟩
    rintro ⟨f, i, hf, hi, hik⟩
    have hne : id ≠ i := by
      rintro rfl
      exact (h.callers f id k hf hi (Instr.mem_of_calledFunction? hik) hn).2.2.1 hX
    exact ⟨f, i, by rwa [func_dropInstr], (functionOf_dropInstr hne).trans hi, by
      rwa [instr_dropInstr_ne hne]⟩
  · obtain ⟨hi', hsame⟩ := hback hi
    rw [func_dropInstr] at hf
    rw [hsame] at hk ⊢
    exact h.callers f i k hf hi' hk hn
  · obtain ⟨hi', hsame⟩ := hback hi
    obtain ⟨hj', hsame'⟩ := hback hj
    rw [func_dropInstr] at hf hg
    exact h.unique f g i j k hf hg hi' hj' (hsame ▸ hik) (hsame' ▸ hjk) hn
  · obtain ⟨f, hf, hb'⟩ := h.placed b hb
    exact ⟨f, hf, (hparent b).trans hb'⟩
  · have hi' : i ∈ (p.block b).instrs := by
      rw [block_dropInstr] at hi
      split at hi
      · exact List.mem_of_mem_filter hi
      · exact hi
    obtain ⟨f, -, hb'⟩ := h.placed b hb
    have hq := (evolves_dropInstr hlive hp).1
    obtain ⟨-, hsame⟩ := hback (f := f) (Option.bind_eq_some_iff.mpr
      ⟨b, hq.mem_instrs.mp hi, (hparent b).trans hb'⟩)
    rw [hsame]
    obtain ⟨h₁, h₂⟩ := h.passed b hb hout i hi' hnot
    refine ⟨h₁, fun k hk => ?_⟩
    rw [func_dropInstr, (sizes_dropInstr p id).1]
    exact h₂ k hk

/-! ## 3. The walk goes on -/

theorem release {X' : List InstrId} (h : Charted n entries ⟨V, F, U, S, A, X⟩ p) (hsub : X' ⊆ X)
    (hleads : ∀ i ∈ X, i ∉ X' → (p.instr i).erased = true ∨
      LeadsOn ⟨V, F, U, S, A, X⟩ p (p.instr i)) : Charted n entries ⟨V, F, U, S, A, X'⟩ p where
  enclosed := h.enclosed
  old := h.old
  walked := h.walked
  copies := h.copies
  callers f i k hf hi hk hn := by
    obtain ⟨h₁, h₂, h₃, h₄⟩ := h.callers f i k hf hi hk hn
    exact ⟨h₁, h₂, fun hmem => h₃ (hsub hmem), h₄⟩
  unique := h.unique
  waiting i hi := h.waiting i (hsub hi)
  entered := h.entered
  placed := h.placed
  passed b hb hout i hi hnot := by
    have hleads' : LeadsOn ⟨V, F, U, S, A, X⟩ p (p.instr i) := by
      by_cases hmem : i ∈ X
      · refine (hleads i hmem hnot).resolve_left ?_
        rw [h.enclosed.sound.instr_live hi]
        exact Bool.false_ne_true
      · exact h.passed b hb hout i hi hmem
    exact ⟨hleads'.taken, hleads'.callee⟩

theorem forget (h : Charted n entries ⟨V, F, U, S, A, X⟩ p)
    (hF : ∀ k ∈ F, k ∈ V ∨ k.index < p.functions.size ∧ (p.func k).blocks = []) :
    Charted n entries ⟨V, [], U, S, A, X⟩ p where
  enclosed := h.enclosed
  old := h.old
  walked := h.walked
  copies := h.copies
  callers := h.callers
  unique := h.unique
  waiting := h.waiting
  entered := h.entered
  placed := h.placed
  passed b hb hout i hi hnot := by
    obtain ⟨htaken, hcallee⟩ := h.passed b hb hout i hi hnot
    refine ⟨htaken, fun k hk => ?_⟩
    rcases hcallee k hk with hk | hk | hk
    · exact .inl hk
    · exact (hF k hk).imp_right .inr
    · exact .inr (.inr hk)

theorem expect (h : Charted n entries ⟨V, [], U, S, A, X⟩ p) (c : FuncId) :
    Charted n entries ⟨V, [c], U, S, A, X⟩ p :=
  { h with
    passed := fun b hb hout i hi hnot =>
      have ⟨htaken, hcallee⟩ := h.passed b hb hout i hi hnot
      ⟨htaken, fun k hk => (hcallee k hk).imp_right fun hk => .inr (hk.resolve_left nofun)⟩ }

theorem widen {entries' : List FuncId} (h : Charted n entries γ p) (hsub : entries ⊆ entries') :
    Charted n entries' γ p :=
  { h with
    walked := fun f hf =>
      ⟨(h.walked f hf).1, (h.walked f hf).2.imp_left fun hmem => hsub hmem⟩ }

theorem enter {entry : BlockId} (h : Charted n entries ⟨V, [c], [], S, A, X⟩ p)
    (hlive : (p.func c).erased = false) (hc : c ∈ entries ∨ n ≤ c.index) (hout : c ∉ V)
    (hentry : (p.func c).entryBlock? = some entry) :
    Charted n entries ⟨c :: V, [], [], entry :: S, entry :: A, X⟩ p := by
  have hparent := h.enclosed.sound.mem_blocks.mp (List.mem_of_mem_head? hentry)
  have hnew : entry ∉ S := by
    intro hmem
    obtain ⟨f, hf, hf'⟩ := h.placed entry hmem
    obtain rfl := Option.some.inj (hf'.symm.trans hparent)
    exact hout hf
  refine ⟨h.enclosed, h.old, fun f hf => ?_, h.copies, fun f i k hf hi hk hn => ?_, h.unique,
    h.waiting, fun f hf b hb => ?_, fun b hb => ?_, fun b hb hnot i hi hnot' => ?_⟩
  · rcases List.mem_cons.mp hf with rfl | hf
    · exact ⟨hlive, hc⟩
    · exact h.walked f hf
  · obtain ⟨h₁, h₂, h₃, b, hb, hA, hparent'⟩ := h.callers f i k hf hi hk hn
    refine ⟨h₁, h₂, h₃, b, List.mem_cons_of_mem _ hb, fun hmem => ?_, hparent'⟩
    rcases List.mem_cons.mp hmem with rfl | hmem
    · exact hnew hb
    · exact hA hmem
  · rcases List.mem_cons.mp hf with rfl | hf
    · obtain rfl := Option.some.inj (hentry.symm.trans hb)
      exact List.mem_cons_self
    · exact List.mem_cons_of_mem _ (h.entered f hf b hb)
  · rcases List.mem_cons.mp hb with rfl | hb
    · exact ⟨c, List.mem_cons_self, hparent⟩
    · obtain ⟨f, hf, hf'⟩ := h.placed b hb
      exact ⟨f, List.mem_cons_of_mem _ hf, hf'⟩
  · rcases List.mem_cons.mp hb with rfl | hb
    · exact absurd List.mem_cons_self hnot
    · obtain ⟨htaken, hcallee⟩ := h.passed b hb
        (fun hmem => hnot (List.mem_cons_of_mem _ hmem)) i hi hnot'
      refine ⟨fun d hd => List.mem_cons_of_mem _ (htaken d hd), fun k hk => ?_⟩
      rcases hcallee k hk with hk | hk | hk
      · exact .inl (List.mem_cons_of_mem _ hk)
      · rw [List.mem_singleton.mp hk]
        exact .inl List.mem_cons_self
      · exact .inr (.inr hk)

theorem begin {A' : List BlockId} {b : BlockId} (h : Charted n entries ⟨V, F, U, S, A, X⟩ p)
    (hb : b ∈ A) (hsub : A' ⊆ A) (hA : A ⊆ b :: A') :
    Charted n entries ⟨V, F, U, S, A', (p.block b).instrs ++ X⟩ p where
  enclosed := h.enclosed
  old := h.old
  walked := h.walked
  copies := h.copies
  callers f i k hf hi hk hn := by
    obtain ⟨h₁, h₂, h₃, a, ha, hout, hparent⟩ := h.callers f i k hf hi hk hn
    refine ⟨h₁, h₂, fun hmem => ?_, a, ha, fun hmem => hout (hsub hmem), hparent⟩
    rcases List.mem_append.mp hmem with hmem | hmem
    · rw [h.enclosed.sound.mem_instrs, hparent, Option.some_inj] at hmem
      exact hout (hmem ▸ hb)
    · exact h₃ hmem
  unique := h.unique
  waiting i hi := by
    rcases List.mem_append.mp hi with hi | hi
    · exact instr_lt_of_live (h.enclosed.sound.instr_live hi)
    · exact h.waiting i hi
  entered := h.entered
  placed := h.placed
  passed a ha hout i hi hnot := by
    rw [List.mem_append, not_or] at hnot
    have hne : a ≠ b := by
      rintro rfl
      exact hnot.1 hi
    obtain ⟨htaken, hcallee⟩ := h.passed a ha (fun hmem => hout
      ((List.mem_cons.mp (hA hmem)).resolve_left hne)) i hi hnot.2
    exact ⟨htaken, hcallee⟩

theorem queue {S' A' : List BlockId} (h : Charted n entries ⟨V, F, U, S, A, X⟩ p) (hS : S ⊆ S')
    (hA : A ⊆ A') (hnew : ∀ b ∈ S', b ∈ S ∨ b ∈ A') (hold : ∀ b ∈ A', b ∈ S → b ∈ A)
    (hplaced : ∀ b ∈ S', b ∉ S → ∃ f ∈ V, (p.block b).parent = some f) :
    Charted n entries ⟨V, F, U, S', A', X⟩ p where
  enclosed := h.enclosed
  old := h.old
  walked := h.walked
  copies := h.copies
  callers f i k hf hi hk hn := by
    obtain ⟨h₁, h₂, h₃, b, hb, hout, hparent⟩ := h.callers f i k hf hi hk hn
    exact ⟨h₁, h₂, h₃, b, hS hb, fun hmem => hout (hold b hmem hb), hparent⟩
  unique := h.unique
  waiting := h.waiting
  entered f hf b hb := hS (h.entered f hf b hb)
  placed b hb := by
    by_cases hmem : b ∈ S
    · exact h.placed b hmem
    · exact hplaced b hb hmem
  passed b hb hout i hi hnot := by
    have hmem := (hnew b hb).resolve_right hout
    obtain ⟨htaken, hcallee⟩ := h.passed b hmem (fun hA' => hout (hA hA')) i hi hnot
    exact ⟨fun d hd => hS (htaken d hd), hcallee⟩

end Charted

/-! ## 4. A call is turned -/

namespace Program

variable {V V' : List FuncId} {p q r : Program}

/-- The functions of `V` lose nothing, and keep their blocks. -/
structure Retains (V : List FuncId) (p q : Program) : Prop where
  spares : Spares (· ∉ V) p q
  func : ∀ f ∈ V, q.func f = p.func f
  bodies : ∀ f : FuncId, f.index < p.functions.size → (p.func f).blocks = [] →
    (q.func f).blocks = []

theorem Retains.refl (hp : p.Sound) : Retains V p p :=
  ⟨.refl hp, fun _ _ => rfl, fun _ _ => id⟩

theorem Retains.trans (h₁ : Retains V p q) (h₂ : Retains V q r) : Retains V p r :=
  ⟨h₁.spares.trans h₂.spares, fun f hf => (h₂.func f hf).trans (h₁.func f hf), fun f hf hnone =>
    h₂.bodies f (Nat.lt_of_lt_of_le hf h₁.spares.buries.functions) (h₁.bodies f hf hnone)⟩

theorem Retains.mono (h : Retains V p q) (hp : p.Sound) (hV : V' ⊆ V) : Retains V' p q :=
  ⟨h.spares.mono hp fun _ _ hf hmem => hf (hV hmem), fun f hf => h.func f (hV hf), h.bodies⟩

theorem Leaves.retains {K : FuncId → Prop} (h : Leaves K p q) (hp : p.Sound)
    (hK : ∀ f ∈ V, ¬ K f) : Retains V p q :=
  ⟨h.spares.mono hp fun f _ hf hmem => hK f hmem hf, fun f hf => h.func f (hK f hf), fun f _ =>
    h.bodies f⟩

theorem Retains.parent_back {f : FuncId} {b : BlockId} (h : Retains V p q) (hp : p.Sound)
    (hq : q.Sound) (hf : f ∈ V) (hb : (q.block b).parent = some f) :
    (p.block b).parent = some f := by
  rw [← hq.mem_blocks, h.func f hf, hp.mem_blocks] at hb
  exact hb

end Program

/-- A function can be walked: it is a copy or an entry point. -/
structure Ready (n : Nat) (entries : List FuncId) (c : FuncId) (p : Program) : Prop where
  live : (p.func c).erased = false
  origin : c ∈ entries ∨ n ≤ c.index

namespace Charted

open Transform

variable {n : Nat} {entries V : List FuncId} {e : Bool} {S A : List BlockId} {X : List InstrId}
  {p p₁ p₂ p₃ q : Program} {f g c : FuncId} {id call : InstrId} {marker : TailMarker}

theorem callee_low (h : Charted n entries ⟨V, [], [], S, A, X⟩ p)
    (hid : p.functionOf? id = some f) (hf : f ∈ V) (hX : id ∈ X)
    (hcallee : (p.instr id).calledFunction? = some g) (hg : g ∉ entries) :
    g.index < n ∧ g ∉ V := by
  have hlow : g.index < n := by
    refine Nat.not_le.mp fun hn => ?_
    exact (h.callers f id g (h.walked f hf).1 hid (Instr.mem_of_calledFunction? hcallee) hn).2.2.1 hX
  exact ⟨hlow, fun hV => (h.walked g hV).2.elim hg fun hn => absurd hlow (Nat.not_lt.mpr hn)⟩

theorem callCopy (h : Charted n entries ⟨V, [], [], S, A, X⟩ p)
    (hid : p.functionOf? id = some f) (hf : f ∈ V) (hX : id ∈ X)
    (hb : ∀ b, (p.instr id).parent = some b → b ∈ S ∧ b ∉ A)
    (hbody : (p.func g).blocks ≠ []) (hout : g ∉ V)
    (hcopy : p.specialise g (constantArguments (p.instr id).arguments) = .ok (p₁, c))
    (hinsert : Edit.insert (.before id) (p₁.draftCall c
      ((p.instr id).arguments.filter fun a => a.toInt?.isNone) none) p₁ = .ok call p₂)
    (hkind : (p₂.takeName id call).setKind call (.call marker) = .ok p₃)
    (hq : q = p₃.replaceUses (.instr id) (.instr call)) :
    Charted n entries ⟨V, [c], [], S, A, X⟩ q ∧ Retains V p q ∧ (q.func c).erased = false ∧
      c = ⟨p.functions.size⟩ ∧ q.functions.size = p.functions.size + 1 ∧
      q.functionOf? call = some f ∧ (q.instr call).calledFunction? = some c := by
  have hp := h.enclosed.sound
  obtain ⟨hlive, -, rfl, rfl⟩ := specialise_ok.mp hcopy
  generalize hconstants : constantArguments (p.instr id).arguments = constants at *
  have hsize : (p.withCopy g constants).functions.size = p.functions.size + 1 := Array.size_push ..
  have h₁ : Charted n entries ⟨V, [], [⟨p.functions.size⟩], S, A, X⟩ (p.withCopy g constants) :=
    h.withCopy hlive hout hbody fun a ha => constantArguments_int a (hconstants ▸ ha)
  have hs₁ : Retains V p (p.withCopy g constants) :=
    ⟨spares_withCopy hp, fun k hk => func_withCopy_old (func_lt_of_live (h.walked k hk).1),
      fun k hk hnone => by rwa [func_withCopy_old hk]⟩
  -- the new call stands before the old one
  obtain ⟨b, front, back, hins⟩ := insert_before_ok hinsert
  have hid₁ := hs₁.spares.functionOf (not_not.mpr hf) hid
  have hsame : (p.withCopy g constants).instr id = p.instr id :=
    instr_withCopy_old (instr_lt_of_live (hp.live_of_functionOf hid))
  have hanchor : (p.instr id).parent = some b := hsame ▸ hins.anchored
  have h₂ := h₁.insert hins hid₁ hf hX (hb b hanchor).1 (hb b hanchor).2
    (by rw [hsize]; exact Nat.lt_succ_self _) rfl rfl fun v hv => by
      rw [hsame]
      exact Replacing.mem_of_arguments (List.mem_of_mem_filter hv)
  have hs₂ : Retains V (p.withCopy g constants) p₂ :=
    ⟨hins.spares h₁.enclosed.sound, fun k _ => hins.func k, fun k _ hnone => by rwa [hins.func]⟩
  obtain ⟨name, hmade⟩ := hins.made
  have hcalls : (p₂.instr call).calledFunction? = some ⟨p.functions.size⟩ := by
    rw [hmade]
    simp [draftCall, Instr.calledFunction?, Instr.callee?, Instr.isCall, Value.toFunc?]
  have hin := hins.functionOf_new (Replacing.parent_of_anchored hins hid₁)
  -- it takes the name, the marker and the uses of the old one
  have hp₂ := h₂.enclosed.sound
  have hl₃ : Leaves (fun _ => False) p₂ (p₂.takeName id call) := leaves_takeName hp₂ id call
  have h₃ := h₂.keep hl₃ (h₂.enclosed.takeName id call)
  have hmarker : ∃ m, ((p₂.takeName id call).instr call).kind = .call m := by
    rw [kind_takeName, hmade]
    exact ⟨_, rfl⟩
  have hl₄ : Leaves (fun _ => False) (p₂.takeName id call) p₃ :=
    leaves_setKind h₃.enclosed.sound hmarker hkind
  have h₄ := h₃.keep hl₄ (h₃.enclosed.setKind hkind)
  have hs₄ := (hl₃.trans hl₄).spares
  have hid₄ := hs₄.functionOf not_false (hs₂.spares.functionOf (not_not.mpr hf) hid₁)
  have hin₄ := hs₄.functionOf not_false hin
  have hl₅ : Leaves (fun _ => False) p₃ q := hq ▸ leaves_replaceUses h₄.enclosed (.inr ⟨rfl, rfl⟩)
  have h₅ := h₄.keep hl₅ (hq ▸ h₄.enclosed.replaceUses hid₄ fun _ =>
    ⟨instr_lt_of_live (h₄.enclosed.sound.live_of_functionOf hin₄), fun k hk =>
      Option.some.inj (hk.symm.trans hin₄)⟩)
  have hl := (hl₃.trans hl₄).trans hl₅
  have hin₅ := hl.spares.functionOf not_false hin
  refine ⟨h₅, hs₁.trans (hs₂.trans (hl.retains hp₂ fun _ _ => not_false)), ?_, rfl, ?_, hin₅, ?_⟩
  · rw [hl.func _ not_false, hins.func, func_withCopy, if_pos rfl]
    exact hlive
  · rw [hl.functions, hins.functions, hsize]
  · exact hl.spares.callee call _ (h₅.enclosed.sound.live_of_functionOf hin₅) hcalls

/-- The step: a call is turned to a copy, which is folded, and its callee goes if it is spent. -/
theorem turn {m : Nat} {p₄ : Program} (h : Charted n entries ⟨V, [], [], S, A, X⟩ p)
    (hid : p.functionOf? id = some f) (hf : f ∈ V) (hX : id ∈ X)
    (hb : ∀ b, (p.instr id).parent = some b → b ∈ S ∧ b ∉ A)
    (hexp : expandable? p (p.instr id) = some (marker, g)) (hg : g ∉ entries)
    (hcopy : p.specialise g (constantArguments (p.instr id).arguments) = .ok (p₁, c))
    (hinsert : Edit.insert (.before id) (p₁.draftCall c
      ((p.instr id).arguments.filter fun a => a.toInt?.isNone) none) p₁ = .ok call p₂)
    (hkind : (p₂.takeName id call).setKind call (.call marker) = .ok p₃)
    (hfold : foldControlFlow (Replacing.controlFlowRules e) c
      (p₃.replaceUses (.instr id) (.instr call)) = .ok m p₄)
    (hspent : q = p₄ ∨ p₄.eraseFunction g = .ok q) :
    Charted n entries ⟨V, [c], [], S, A, X⟩ q ∧ Retains V p q ∧ Ready n entries c q ∧
      (q.instr call).calledFunction? = some c ∧ q.functions.size = p.functions.size + 1 := by
  obtain ⟨-, hcallee, hdeclared, -, -⟩ := expandable?_eq_some.mp hexp
  obtain ⟨hlow, hout⟩ := h.callee_low hid hf hX hcallee hg
  obtain ⟨h₁, hs₁, hlive, rfl, hsize, hin, hcalls⟩ := h.callCopy hid hf hX hb
    (fun hnil => by simp [Func.isDeclaration, hnil] at hdeclared) hout hcopy hinsert hkind rfl
  have hnew : (⟨p.functions.size⟩ : FuncId) ∉ V := fun hV =>
    Nat.lt_irrefl _ (func_lt_of_live (h.walked _ hV).1)
  obtain ⟨h₂, hl₂, hfunc⟩ := h₁.fold hlive hnew hfold
  have hs₂ := hl₂.retains h₁.enclosed.sound (V := V) (by rintro k hk rfl; exact hnew hk)
  have hready : Ready n entries ⟨p.functions.size⟩ p₄ :=
    ⟨hfunc _ ▸ hlive, .inr h.old⟩
  have hcalls' : ∀ {r}, Retains V (p₃.replaceUses (.instr id) (.instr call)) r →
      (r.instr call).calledFunction? = some ⟨p.functions.size⟩ := fun hs =>
    hs.spares.callee call _ (hs.spares.instr f call (not_not.mpr hf) hin) hcalls
  rcases hspent with rfl | herase
  · exact ⟨h₂, hs₁.trans hs₂, hready, hcalls' hs₂, hl₂.functions.trans hsize⟩
  -- the callee has been spent
  · obtain ⟨hlive₂, rfl⟩ := (eraseFunction_ok h₂.enclosed.sound).mp herase
    have hl₃ : Leaves (· = g) p₄ (p₄.dropFunction g) := leaves_dropFunction h₂.enclosed.sound
    have hne : (⟨p.functions.size⟩ : FuncId) ≠ g := by
      rintro rfl
      exact absurd h.old (Nat.not_le.mpr hlow)
    have hs₃ := hs₂.trans (hl₃.retains h₂.enclosed.sound (by rintro k hk rfl; exact hout hk))
    refine ⟨h₂.dropFunction hlive₂ hout hlow, hs₁.trans hs₃, ⟨?_, .inr h.old⟩, hcalls' hs₃,
      (hl₃.functions.trans hl₂.functions).trans hsize⟩
    rw [hl₃.func _ hne]
    exact hready.live

end Charted

end QirProfile
