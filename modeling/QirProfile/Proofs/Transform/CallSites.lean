import QirProfile.Cleanup
import QirProfile.Proofs.Transform.ActiveCode
import QirProfile.Proofs.Transform.Charts
import QirProfile.Proofs.Transform.Unhindered

/-!
# Functions that are called from one place

When calls have got their copies, no two calls on the execution path share a function. While the walk
is under way that is not true yet: calls that have not been visited lead to functions that may be
shared, and what they lead to is not known.
-/

namespace QirProfile

open Program

/-! ## 1. The execution path -/

/-- The execution path from the functions of `entries` on: their blocks as far as control goes if
    nothing is thrown, and the functions that are called by name there. -/
inductive Program.OnPath (p : Program) (entries : List FuncId) : Value → Prop
  | entry {f : FuncId} (hf : f ∈ entries) : OnPath p entries (.func f)
  | enter {f : FuncId} {b : BlockId} (hf : OnPath p entries (.func f))
      (hb : (p.func f).entryBlock? = some b) : OnPath p entries (.block b)
  | goto {b c : BlockId} {i : InstrId} (hb : OnPath p entries (.block b))
      (hi : i ∈ (p.block b).instrs) (hc : c ∈ (p.instr i).taken) : OnPath p entries (.block c)
  | call {b : BlockId} {i : InstrId} {k : FuncId} (hb : OnPath p entries (.block b))
      (hi : i ∈ (p.block b).instrs) (hk : (p.instr i).calledFunction? = some k) :
      OnPath p entries (.func k)

/-- The walk has come to a function, or the function has no body. -/
def Chart.Settles (γ : Chart) (p : Program) (f : FuncId) : Prop :=
  f ∈ γ.walked ∨ f.index < p.functions.size ∧ (p.func f).blocks = []

theorem Charted.onPath {n : Nat} {done entries V : List FuncId} {S : List BlockId}
    {p : Program} (h : Charted n done ⟨V, [], [], S, [], []⟩ p)
    (hentries : ∀ f ∈ entries, Chart.Settles ⟨V, [], [], S, [], []⟩ p f) {v : Value}
    (hv : p.OnPath entries v) :
    (∀ f, v = .func f → Chart.Settles ⟨V, [], [], S, [], []⟩ p f) ∧ ∀ b, v = .block b → b ∈ S := by
  induction hv with
  | entry hf => exact ⟨fun _ heq => by cases heq; exact hentries _ hf, nofun⟩
  | @enter f b _ hb ih =>
    refine ⟨nofun, fun _ heq => ?_⟩
    cases heq
    rcases ih.1 f rfl with hf | ⟨-, hnone⟩
    · exact h.entered f hf b hb
    · rw [Func.entryBlock?, hnone] at hb
      cases hb
  | goto _ hi hc ih =>
    refine ⟨nofun, fun _ heq => ?_⟩
    cases heq
    exact (h.passed _ (ih.2 _ rfl) List.not_mem_nil _ hi List.not_mem_nil).taken _ hc
  | call _ hi hk ih =>
    refine ⟨fun _ heq => ?_, nofun⟩
    cases heq
    rcases (h.passed _ (ih.2 _ rfl) List.not_mem_nil _ hi List.not_mem_nil).callee _ hk with h | h | h
    · exact .inl h
    · cases h
    · exact .inr h

theorem Charted.existsUnique_call {n : Nat} {done V : List FuncId} {S : List BlockId}
    {p : Program} {k : FuncId} (h : Charted n done ⟨V, [], [], S, [], []⟩ p) (hk : n ≤ k.index)
    (hlt : k.index < p.functions.size) :
    ∃! i, i ∈ Cleanup.attachedInstrs p ∧ (p.instr i).calledFunction? = some k := by
  have hattached : ∀ i, i ∈ Cleanup.attachedInstrs p ↔
      ∃ f, (p.func f).erased = false ∧ p.functionOf? i = some f := by
    intro i
    simp only [Cleanup.attachedInstrs, List.mem_flatMap, mem_liveFunctions,
      h.enclosed.sound.mem_instrsOf]
  obtain ⟨-, -, hcall⟩ := h.copies k hk hlt
  obtain ⟨f, i, hf, hi, hik⟩ := hcall.resolve_left List.not_mem_nil
  refine ⟨i, ⟨(hattached i).mpr ⟨f, hf, hi⟩, hik⟩, ?_⟩
  rintro j ⟨hj, hjk⟩
  obtain ⟨g, hg, hj⟩ := (hattached j).mp hj
  exact h.unique g f j i k hg hf hj hi (Instr.mem_of_calledFunction? hjk)
    (Instr.mem_of_calledFunction? hik) hk

namespace Transform

variable {n m : Nat} {done entries V V' : List FuncId} {s : TransformSettings} {γ : Chart}
  {f k : FuncId} {id : InstrId} {todo : List InstrId} {front front' : Frontier}
  {S S' S₁ S₂ : List BlockId} {t t' t₁ t₂ : PathState Nat} {p : Program}

/-! ## 2. How far a walk has come -/

/-- What a part of a walk does to the functions of `V`: nothing goes there, and no further block is
    seen there. -/
structure Further (V : List FuncId) (S S' : List BlockId) (t t' : PathState Nat) : Prop where
  visited : t.visited ⊆ t'.visited
  seen : S ⊆ S'
  known : ∀ g ∈ V, ∀ b ∈ S', (t'.program.block b).parent = some g → b ∈ S
  retains : Retains V t.program t'.program
  /-- Every new function has been counted. -/
  count : t'.program.functions.size + t.extra = t.program.functions.size + t'.extra

theorem Further.refl (hp : t.program.Sound) : Further V S S t t :=
  ⟨fun _ h => h, fun _ h => h, fun _ _ _ hb _ => hb, .refl hp, rfl⟩

theorem Further.trans (h₁ : Further V S S₁ t t₁) (h₂ : Further V S₁ S₂ t₁ t₂)
    (hp : t₁.program.Sound) (hq : t₂.program.Sound) : Further V S S₂ t t₂ where
  visited := List.Subset.trans h₁.visited h₂.visited
  seen := List.Subset.trans h₁.seen h₂.seen
  known g hg b hb hparent := by
    have hb₁ := h₂.known g hg b hb hparent
    exact h₁.known g hg b hb₁ (h₂.retains.parent_back hp hq hg hparent)
  retains := h₁.retains.trans h₂.retains
  count := by
    have hcount₁ := h₁.count
    have hcount₂ := h₂.count
    omega

theorem Further.mono (h : Further V S S' t t') (hp : t.program.Sound) (hV : V' ⊆ V) :
    Further V' S S' t t' :=
  ⟨h.visited, h.seen, fun g hg => h.known g (hV hg), h.retains.mono hp hV, h.count⟩

/-- The function `f` with at most `m` blocks is being walked, and `γ` says how far the walk around it
    has come. The instructions of `todo` are next, then the blocks of the queue. -/
structure Surveying (n : Nat) (done : List FuncId) (γ : Chart) (f : FuncId)
    (m : Nat) (todo : List InstrId) (front : Frontier) (S : List BlockId) (t : PathState Nat) :
    Prop where
  charted : Charted n done
    ⟨t.visited, [], [], S, front.queue ++ γ.ahead, todo ++ t.doomed ++ γ.waiting⟩ t.program
  walked : f ∈ t.visited
  outside : f ∉ γ.walked
  outer : γ.walked ⊆ t.visited
  room : (t.program.func f).blocks.length ≤ m
  ahead : ∀ b ∈ γ.ahead, ∃ g ∈ γ.walked, (t.program.block b).parent = some g
  inside : ∀ i, i ∈ todo ∨ i ∈ t.doomed → Inside f t.program i
  left : ∀ i ∈ todo, t.program.functionOf? i = some f → ∀ b, (t.program.instr i).parent = some b →
    b ∈ front.queued ∧ b ∉ front.queue
  queued : front.queued ⊆ S
  home : ∀ b ∈ front.queued, (t.program.block b).parent = some f
  known : ∀ b ∈ S, (t.program.block b).parent = some f → b ∈ front.queued
  queue : front.queue ⊆ front.queued
  distinct : front.queue.Nodup
  nodup : front.queued.Nodup

namespace Surveying

theorem sound (h : Surveying n done γ f m todo front S t) : t.program.Sound :=
  h.charted.enclosed.sound

theorem next {todo' : List InstrId} (h : Surveying n done γ f m todo front S t)
    (hv : Further t.visited S S' t t')
    (hcharted : Charted n done
      ⟨t'.visited, [], [], S', front.queue ++ γ.ahead, todo' ++ t'.doomed ++ γ.waiting⟩ t'.program)
    (htodo : todo' ⊆ todo) (hdoomed : ∀ i ∈ t'.doomed, i ∈ t.doomed ∨ i ∈ todo) :
    Surveying n done γ f m todo' front S' t' where
  charted := hcharted
  walked := hv.visited h.walked
  outside := h.outside
  outer := List.Subset.trans h.outer hv.visited
  room := by
    rw [hv.retains.func f h.walked]
    exact h.room
  ahead b hb := by
    obtain ⟨g, hg, hparent⟩ := h.ahead b hb
    exact ⟨g, hg, hv.retains.spares.blockOf (not_not.mpr (h.outer hg)) hparent⟩
  inside i hi := by
    refine hv.retains.spares.inside hcharted.enclosed.sound (h.inside i ?_)
    rcases hi with hi | hi
    · exact .inl (htodo hi)
    · exact (hdoomed i hi).symm
  left i hi hin b hb := by
    have hlt := (h.inside i (.inl (htodo hi))).1
    have hin' := hv.retains.spares.functionOf_back h.sound hcharted.enclosed.sound hlt hin
    rw [hv.retains.spares.instrOf (not_not.mpr h.walked) hin'] at hb
    exact h.left i (htodo hi) hin' b hb
  queued := List.Subset.trans h.queued hv.seen
  home b hb := hv.retains.spares.blockOf (not_not.mpr h.walked) (h.home b hb)
  known b hb hparent := h.known b (hv.known f h.walked b hb hparent)
    (hv.retains.parent_back h.sound hcharted.enclosed.sound h.walked hparent)
  queue := h.queue
  distinct := h.distinct
  nodup := h.nodup

theorem pass (h : Surveying n done γ f m (id :: todo) front S t)
    (hid : (t.program.instr id).erased = true ∨ ∀ A X,
      LeadsOn ⟨t.visited, [], [], S, A, X⟩ t.program (t.program.instr id)) :
    Surveying n done γ f m todo front S t := by
  refine h.next (.refl h.sound) (h.charted.release ?_ fun i hi hnot => ?_)
    (List.subset_cons_self id todo) fun _ => .inl
  · exact fun i hi => List.mem_cons_of_mem id hi
  · rcases List.mem_cons.mp hi with rfl | hi
    · exact hid.imp_right fun hleads => hleads _ _
    · exact absurd hi hnot

theorem grow {bs : List BlockId} (h : Surveying n done γ f m todo front S t)
    (hgrows : Frontier.Grows bs front front')
    (hbs : ∀ b ∈ bs, (t.program.block b).parent = some f) :
    Surveying n done γ f m todo front' (front'.queued ++ S) t ∧
      Further γ.walked S (front'.queued ++ S) t t := by
  have hhome : ∀ b ∈ front'.queued, (t.program.block b).parent = some f := fun b hb =>
    (hgrows.origin b hb).elim (h.home b) (hbs b)
  have hqueue := hgrows.inQueue h.queue
  refine ⟨⟨h.charted.queue ?_ ?_ ?_ ?_ ?_, h.walked, h.outside, h.outer, h.room, h.ahead,
    h.inside, fun i hi hin b hb => ?_, List.subset_append_left _ _, hhome, fun b hb hparent => ?_, hqueue,
    hgrows.distinct h.queue h.distinct, hgrows.nodup h.nodup⟩,
    ⟨fun _ h => h, List.subset_append_right _ _, fun g hg b hb hparent => ?_, .refl h.sound, rfl⟩⟩
  · exact List.subset_append_right _ _
  · intro b hb
    rcases List.mem_append.mp hb with hb | hb
    · exact List.mem_append_left _ (hgrows.queue hb)
    · exact List.mem_append_right _ hb
  · intro b hb
    rcases List.mem_append.mp hb with hb | hb
    · exact (hgrows.queued b hb).imp (fun hb => h.queued hb) (List.mem_append_left _)
    · exact .inl hb
  · -- a block that is new in the queue has not been seen
    intro b hb hseen
    rcases List.mem_append.mp hb with hb | hb
    · refine List.mem_append_left _ ((hgrows.fresh b hb).resolve_right fun hnew => hnew ?_)
      exact h.known b hseen (hhome b (hqueue hb))
    · exact List.mem_append_right _ hb
  · intro b hb hnew
    refine ⟨f, h.walked, hhome b ?_⟩
    exact (List.mem_append.mp hb).resolve_right hnew
  · obtain ⟨hqueued, hout⟩ := h.left i hi hin b hb
    refine ⟨hgrows.old hqueued, fun hmem => ?_⟩
    exact (hgrows.fresh b hmem).elim hout fun hnew => hnew hqueued
  · rcases List.mem_append.mp hb with hb | hb
    · exact hb
    · exact hgrows.old (h.known b hb hparent)
  · rcases List.mem_append.mp hb with hb | hb
    · obtain rfl := Option.some.inj ((hhome b hb).symm.trans hparent)
      exact absurd hg h.outside
    · exact hb

end Surveying

/-! ## 3. Instructions -/

/-- A walk of a called function charts what it comes to, and leaves what lies further out open. -/
structure Charts (n : Nat) (done : List FuncId)
    (follow : FuncId → Walk Nat Bool) : Prop where
  passes : ∀ {k : FuncId} {t t' : PathState Nat} {b : Bool}, (t.program.func k).blocks = [] →
    follow k t = .ok b t' → t' = t
  walks : ∀ {k : FuncId} {S A : List BlockId} {X : List InstrId} {t t' : PathState Nat} {b : Bool},
    Charted n done ⟨t.visited, [k], [], S, A, X⟩ t.program →
    (∀ b ∈ A, ∃ g ∈ t.visited, (t.program.block b).parent = some g) →
    Ready n done k t.program → follow k t = .ok b t' →
    ∃ S', Charted n done ⟨t'.visited, [], [], S', A, X⟩ t'.program ∧
      Further t.visited S S' t t' ∧ t'.doomed = t.doomed ∧
      (k ∈ t'.visited ∨ (t'.program.func k).blocks = [])

theorem hollow_of_not_expandable {i : Instr} (hcopy : copyable entries p i = true)
    (hnone : expandable? p i = none) (hk : i.calledFunction? = some k) :
    (p.func k).blocks = [] := by
  simp only [copyable, hk, Bool.and_eq_true, Bool.or_eq_true, Bool.not_eq_true',
    beq_iff_eq] at hcopy
  obtain hdeclared | ⟨⟨⟨hcall, -⟩, hfixed⟩, hlength⟩ := hcopy
  · exact List.isEmpty_iff.mp hdeclared
  by_contra hbody
  have hdefined : (p.func k).isDeclaration = false := by
    simpa [Func.isDeclaration] using hbody
  cases hkind : i.kind with
  | call marker =>
    rw [expandable?_eq_some.mpr ⟨hkind, hk, hdefined, hfixed, hlength⟩] at hnone
    cases hnone
  | _ => simp [Instr.isCall, hkind] at hcall

theorem specialiseFreely_instr {current : Option Value}
    (h : specialiseFreely s entries (.instr id) t = .ok current t') :
    copyable entries t.program (t.program.instr id) = true ∧
      specialiseCall s (.instr id) t = .ok current t' := by
  unfold specialiseFreely at h
  obtain ⟨_, _, hprogram, h⟩ := bind_ok h
  cases hprogram
  split at h
  · rename_i hcopy
    exact ⟨hcopy, h⟩
  · cases h

theorem taken_of_targets {limits : WalkLimits} {name : String} {i : Instr} {bs : List BlockId}
    (h : Walk.targets limits name i = .ok bs) : i.taken = bs := by
  unfold Walk.targets at h
  unfold Instr.taken
  cases hkind : i.kind with
  | br | switch =>
    rw [hkind] at h
    exact Except.ok.inj h
  | invoke =>
    simp only [hkind] at h
    split at h
    · exact Except.ok.inj h
    · cases h
  | _ =>
    rw [hkind] at h
    exact Except.ok.inj h

namespace Surveying

theorem turn {current : Option Value} (h : Surveying n done γ f m (id :: todo) front S t)
    (hid : t.program.functionOf? id = some f) (hdone : done ⊆ entries)
    (hcopy : copyable entries t.program (t.program.instr id) = true)
    (hexp : expandable? t.program (t.program.instr id) ≠ none)
    (hvisit : specialiseCall s (.instr id) t = .ok current t') :
    ∃ c call, current = some (.instr call) ∧
      (t'.program.instr call).calledFunction? = some c ∧
      Charted n done ⟨t'.visited, [c], [], S, front.queue ++ γ.ahead,
        todo ++ t'.doomed ++ γ.waiting⟩ t'.program ∧
      Ready n done c t'.program ∧ Further t.visited S S t t' ∧
      t'.visited = t.visited ∧ t'.doomed = t.doomed ++ [id] := by
  rcases specialiseCall_cases hvisit with ⟨hnone, -⟩ |
    ⟨marker, g, c, call, p₁, p₂, p₃, p₄, q, _, hcall, hspecialise, hinsert, hkind, hfold, hspent,
      rfl, rfl⟩
  · exact absurd hnone hexp
  obtain ⟨-, hcallee, hdefined, -⟩ := expandable?_eq_some.mp hcall
  have hg : g ∉ done := by
    intro hmem
    simp [copyable, hcallee, hdefined, hdone hmem] at hcopy
  have hstands : ∀ b, (t.program.instr id).parent = some b →
      b ∈ S ∧ b ∉ front.queue ++ γ.ahead := by
    intro b hb
    obtain ⟨hqueued, hout⟩ := h.left id List.mem_cons_self hid b hb
    refine ⟨h.queued hqueued, fun hmem => ?_⟩
    rcases List.mem_append.mp hmem with hmem | hmem
    · exact hout hmem
    · obtain ⟨g', hg', hparent⟩ := h.ahead b hmem
      obtain rfl := Option.some.inj ((h.home b hqueued).symm.trans hparent)
      exact h.outside hg'
  obtain ⟨hcharted, hretains, hready, hcalls, hsize⟩ := h.charted.turn hid h.walked
    List.mem_cons_self hstands hcall hg hspecialise hinsert hkind hfold
    (hspent.imp_right fun h => h.2.2)
  refine ⟨c, call, rfl, hcalls, hcharted.release ?_ fun i hi hnot => ?_, hready,
    ⟨fun _ h => h, fun _ h => h, fun _ _ _ hb _ => hb, hretains, ?_⟩, rfl, rfl⟩
  · intro i hi
    simp only [List.mem_append, List.mem_cons] at hi ⊢
    tauto
  · simp only [List.mem_append, List.mem_cons] at hi hnot
    tauto
  · dsimp only
    omega

theorem placed (h : Surveying n done γ f m todo front S t) :
    ∀ b ∈ front.queue ++ γ.ahead, ∃ g ∈ t.visited, (t.program.block b).parent = some g := by
  intro b hb
  rcases List.mem_append.mp hb with hb | hb
  · exact ⟨f, h.walked, h.home b (h.queue hb)⟩
  · obtain ⟨g, hg, hparent⟩ := h.ahead b hb
    exact ⟨g, h.outer hg, hparent⟩

theorem follow {follow : FuncId → Walk Nat Bool} {c : FuncId} {b : Bool}
    (hfollow : Charts n done follow) (h : Surveying n done γ f m (id :: todo) front S t)
    (hcharted : Charted n done ⟨t₁.visited, [c], [], S, front.queue ++ γ.ahead,
      todo ++ t₁.doomed ++ γ.waiting⟩ t₁.program)
    (hready : Ready n done c t₁.program) (hv : Further t.visited S S t t₁)
    (hvisited : t₁.visited = t.visited) (hdoomed : t₁.doomed = t.doomed ++ [id])
    (hwalk : follow c t₁ = .ok b t') :
    ∃ S', Surveying n done γ f m todo front S' t' ∧ Further t.visited S S' t t' := by
  have hplaced : ∀ b ∈ front.queue ++ γ.ahead, ∃ g ∈ t₁.visited,
      (t₁.program.block b).parent = some g := by
    intro b hb
    obtain ⟨g, hg, hparent⟩ := h.placed b hb
    exact ⟨g, hvisited ▸ hg, hv.retains.spares.blockOf (not_not.mpr hg) hparent⟩
  obtain ⟨S', hcharted', hv', hdoomed', -⟩ := hfollow.walks hcharted hplaced hready hwalk
  rw [hvisited] at hv'
  have hboth := hv.trans hv' hcharted.enclosed.sound hcharted'.enclosed.sound
  refine ⟨S', h.next hboth (hdoomed' ▸ hcharted') (List.subset_cons_self id todo) fun i hi => ?_,
    hboth⟩
  rw [hdoomed', hdoomed] at hi
  refine (List.mem_append.mp hi).imp_right fun hi => ?_
  rw [List.mem_singleton.mp hi]
  exact List.mem_cons_self

theorem visitInstr {follow : FuncId → Walk Nat Bool} (hfollow : Charts n done follow)
    (hdone : done ⊆ entries) (h : Surveying n done γ f m (id :: todo) front S t)
    (hvisit : Walk.visitInstr s.limits (specialiseFreely s entries) follow f front id t =
      .ok front' t') :
    ∃ S', Surveying n done γ f m todo front' S' t' ∧ Further γ.walked S S' t t' ∧
      front'.queue.length + front.queued.length = front.queue.length + front'.queued.length := by
  rcases Walk.visitInstr_cases hvisit with ⟨herased, rfl, rfl⟩ |
    ⟨hlive, current, t₁, hspecialise, hrest⟩
  · exact ⟨S, h.pass (.inl herased), .refl h.sound, rfl⟩
  have hid : t.program.functionOf? id = some f :=
    (h.inside id (.inl List.mem_cons_self)).2.resolve_left (by rw [hlive]; exact Bool.false_ne_true)
  obtain ⟨hcopy, hspecialise⟩ := specialiseFreely_instr hspecialise
  by_cases hexp : expandable? t.program (t.program.instr id) = none
  -- nothing is turned here, and what is called has no body
  · rcases specialiseCall_cases hspecialise with ⟨-, rfl, rfl⟩ | ⟨_, _, _, _, _, _, _, _, _, _, hcall, -⟩
    · have hhollow : ∀ k, (t₁.program.instr id).calledFunction? = some k →
          (t₁.program.func k).blocks = [] := fun k hk =>
        hollow_of_not_expandable hcopy hexp hk
      obtain ⟨hcall, bs, htargets, rfl⟩ := hrest.resolve_left (by rintro ⟨⟨⟩, -⟩)
      obtain rfl : t' = t₁ := by
        rcases hcall with ⟨rfl, -⟩ | ⟨i, k, b, hi, hk, hwalk⟩
        · rfl
        · cases hi
          exact hfollow.passes (hhollow k hk) hwalk
      have hoperands := h.charted.enclosed.operands f id (h.charted.walked f h.walked).1 hid
      have hgrows := Frontier.grows_pushAll bs front
      obtain ⟨h', hv⟩ := h.grow hgrows fun b hb => hoperands _ (mem_of_targets htargets hb).2.2
      refine ⟨_, h'.pass (.inr fun A X => ⟨fun c hc => ?_, fun k hk => .inr (.inr ?_)⟩), hv,
        hgrows.length⟩
      · rw [taken_of_targets htargets] at hc
        exact List.mem_append_left _ (hgrows.pushed hc)
      · exact ⟨hoperands _ (Instr.mem_of_calledFunction? hk), hhollow k hk⟩
    · rw [hexp] at hcall
      cases hcall
  -- the call is turned, and the copy is walked
  · obtain ⟨c, call, rfl, hcalls, hcharted, hready, hv, hvisited, hdoomed⟩ :=
      h.turn hid hdone hcopy hexp hspecialise
    obtain ⟨hcall, bs, htargets, rfl⟩ := hrest.resolve_left (by rintro ⟨⟨⟩, -⟩)
    rcases hcall with ⟨-, hnone⟩ | ⟨i, k, b, hi, hk, hwalk⟩
    · rw [hnone call rfl] at hcalls
      cases hcalls
    cases hi
    obtain rfl := Option.some.inj (hk.symm.trans hcalls)
    obtain ⟨S₁, h₁, hv₁⟩ := h.follow hfollow hcharted hready hv hvisited hdoomed hwalk
    have hid' := hv₁.retains.spares.functionOf (not_not.mpr h.walked) hid
    have hoperands := h₁.charted.enclosed.operands f id (h₁.charted.walked f h₁.walked).1 hid'
    have hgrows := Frontier.grows_pushAll bs front
    obtain ⟨h₂, hv₂⟩ := h₁.grow hgrows fun b hb => hoperands _ (mem_of_targets htargets hb).2.2
    exact ⟨_, h₂, (hv₁.mono h.sound h.outer).trans hv₂ h₁.sound h₁.sound, hgrows.length⟩

end Surveying

/-! ## 4. Blocks -/

section

variable {follow : FuncId → Walk Nat Bool} (hfollow : Charts n done follow)
  (hdone : done ⊆ entries)

include hfollow hdone

theorem Surveying.visitInstrs (h : Surveying n done γ f m todo front S t)
    (hvisit : todo.foldlM (Walk.visitInstr s.limits (specialiseFreely s entries) follow f) front t =
      .ok front' t') :
    ∃ S', Surveying n done γ f m [] front' S' t' ∧ Further γ.walked S S' t t' ∧
      front'.queue.length + front.queued.length = front.queue.length + front'.queued.length := by
  induction todo generalizing front S t with
  | nil =>
    obtain ⟨rfl, rfl⟩ := pure_ok hvisit
    exact ⟨S, h, .refl h.sound, rfl⟩
  | cons id todo ih =>
    rw [List.foldlM_cons] at hvisit
    obtain ⟨front₁, t₁, hone, hvisit⟩ := bind_ok hvisit
    obtain ⟨S₁, h₁, hv₁, hlength₁⟩ := h.visitInstr hfollow hdone hone
    obtain ⟨S₂, h₂, hv₂, hlength₂⟩ := ih h₁ hvisit
    exact ⟨S₂, h₂, hv₁.trans hv₂ h₁.sound h₂.sound, by omega⟩

theorem Surveying.visitBlock {b : BlockId} {rest queued : List BlockId}
    (h : Surveying n done γ f m [] ⟨b :: rest, queued⟩ S t)
    (hvisit : Walk.visitBlock s.limits (specialiseFreely s entries) follow f ⟨rest, queued⟩ b t =
      .ok front' t') :
    ∃ S', Surveying n done γ f m [] front' S' t' ∧ Further γ.walked S S' t t' ∧
      front'.queue.length + queued.length = rest.length + front'.queued.length := by
  obtain ⟨hnew, hrest⟩ := List.nodup_cons.mp h.distinct
  have hqueued : b ∈ queued := h.queue List.mem_cons_self
  have hparent := h.home b hqueued
  unfold Walk.visitBlock at hvisit
  obtain ⟨_, _, hprogram, hvisit⟩ := bind_ok hvisit
  cases hprogram
  rw [if_neg (by rw [h.sound.block_live_of_listed (h.sound.mem_blocks.mpr hparent)]
                 exact Bool.false_ne_true)] at hvisit
  obtain ⟨_, _, hblock, hvisit⟩ := bind_ok hvisit
  cases hblock
  obtain ⟨_, _, hprogram, hvisit⟩ := bind_ok hvisit
  cases hprogram
  have hbegun : Surveying n done γ f m (t.program.block b).instrs ⟨rest, queued⟩ S t := by
    refine ⟨?_, h.walked, h.outside, h.outer, h.room, h.ahead, fun i hi => ?_,
      fun i hi _ c hc => ?_, h.queued, h.home, h.known,
      fun c hc => h.queue (List.mem_cons_of_mem b hc), hrest, h.nodup⟩
    · rw [List.append_assoc]
      exact h.charted.begin List.mem_cons_self (fun c hc => List.mem_cons_of_mem b hc) fun _ h => h
    · rcases hi with hi | hi
      · exact inside_of_functionOf h.sound
          (h.sound.functionOf_of_mem (h.sound.mem_blocks.mpr hparent) hi)
      · exact h.inside i (.inr hi)
    · rw [h.sound.mem_instrs.mp hi, Option.some_inj] at hc
      subst hc
      exact ⟨hqueued, hnew⟩
  exact hbegun.visitInstrs hfollow hdone hvisit

theorem Surveying.visitBlocks {fuel : Nat} {u : Unit}
    (h : Surveying n done γ f m [] front S t)
    (hfuel : m + 1 + front.queue.length ≤ fuel + front.queued.length)
    (hvisit : Walk.visitBlocks s.limits (specialiseFreely s entries) follow f fuel front t =
      .ok u t') :
    ∃ S' front', Surveying n done γ f m [] front' S' t' ∧ front'.queue = [] ∧
      Further γ.walked S S' t t' := by
  induction fuel generalizing front S t with
  | zero =>
    have hsub : front.queued ⊆ (t.program.func f).blocks := fun b hb =>
      h.sound.mem_blocks.mpr (h.home b hb)
    have hlength := (h.nodup.subperm hsub).length_le
    have hroom := h.room
    omega
  | succ fuel ih =>
    obtain ⟨queue, queued⟩ := front
    cases queue with
    | nil =>
      obtain ⟨-, rfl⟩ := pure_ok hvisit
      exact ⟨S, _, h, rfl, .refl h.sound⟩
    | cons b rest =>
      unfold Walk.visitBlocks at hvisit
      obtain ⟨front₁, t₁, hone, hvisit⟩ := bind_ok hvisit
      obtain ⟨S₁, h₁, hv₁, hlength⟩ := h.visitBlock hfollow hdone hone
      simp only [List.length_cons] at hfuel
      obtain ⟨S₂, front₂, h₂, hnone, hv₂⟩ := ih h₁ (by omega) hvisit
      exact ⟨S₂, front₂, h₂, hnone, hv₁.trans hv₂ h₁.sound h₂.sound⟩

theorem visitFunction_charts {entry : BlockId} {A : List BlockId} {X : List InstrId} {u : Unit}
    (hready : Ready n done f t.program)
    (hcharted : Charted n done ⟨V, [f], [], S, A, X⟩ t.program)
    (hA : ∀ b ∈ A, ∃ g ∈ V, (t.program.block b).parent = some g) (hout : f ∉ V)
    (hentry : (t.program.func f).entryBlock? = some entry) (hvisited : t.visited = f :: V)
    (hdoomed : t.doomed = [])
    (hvisit : Walk.visitFunction s.limits (specialiseFreely s entries) follow f t = .ok u t') :
    ∃ S', Charted n done ⟨t'.visited, [], [], S', A, t'.doomed ++ X⟩ t'.program ∧
      Further V S S' t t' ∧ f ∈ t'.visited ∧ ∀ i ∈ t'.doomed, Inside f t'.program i := by
  have hp := hcharted.enclosed.sound
  have hparent := hp.mem_blocks.mp (List.mem_of_mem_head? hentry)
  have hentered := hcharted.enter hready.live hready.origin hout hentry
  have hroom : (t.program.func f).blocks.length ≤ t.program.blocks.size := by
    have hsub : (t.program.func f).blocks ⊆ (List.range t.program.blocks.size).map BlockId.mk :=
      fun b hb => List.mem_map.mpr ⟨b.index, List.mem_range.mpr
        (block_lt_of_parent (hp.mem_blocks.mp hb)), rfl⟩
    have hlength := ((hp.nodup_blocks f).subperm hsub).length_le
    rwa [List.length_map, List.length_range] at hlength
  have hstart : Surveying n done ⟨V, [], [], S, A, X⟩ f t.program.blocks.size [] (.start entry)
      (entry :: S) t := by
    refine ⟨?_, ?_, hout, ?_, hroom, hA, fun i hi => ?_, nofun, ?_, ?_, fun b hb hb' => ?_,
      fun _ h => h, List.nodup_singleton _, List.nodup_singleton _⟩
    · rw [hvisited, hdoomed]
      exact hentered
    · rw [hvisited]
      exact List.mem_cons_self
    · rw [hvisited]
      exact List.subset_cons_self f V
    · rw [hdoomed] at hi
      exact absurd hi (by simp)
    · intro b hb
      rw [List.mem_singleton.mp hb]
      exact List.mem_cons_self
    · intro b hb
      rw [List.mem_singleton.mp hb]
      exact hparent
    · rcases List.mem_cons.mp hb with rfl | hb
      · exact List.mem_singleton_self b
      · obtain ⟨g, hg, hb⟩ := hcharted.placed b hb
        obtain rfl := Option.some.inj (hb'.symm.trans hb)
        exact absurd hg hout
  unfold Walk.visitFunction at hvisit
  obtain ⟨_, _, hprogram, hvisit⟩ := bind_ok hvisit
  cases hprogram
  rw [hentry] at hvisit
  obtain ⟨_, _, hfunc, hvisit⟩ := bind_ok hvisit
  cases hfunc
  obtain ⟨S', front', h', hnone, hv⟩ := hstart.visitBlocks hfollow hdone (Nat.le_refl _) hvisit
  have hcharted' := h'.charted
  rw [hnone] at hcharted'
  refine ⟨S', hcharted', ⟨hv.visited, fun b hb => hv.seen (List.mem_cons_of_mem _ hb),
    fun g hg b hb hbg => ?_, hv.retains, hv.count⟩, h'.walked, fun i hi => h'.inside i (.inr hi)⟩
  rcases List.mem_cons.mp (hv.known g hg b hb hbg) with rfl | hb
  · have hbg' := hv.retains.parent_back hp h'.sound hg hbg
    obtain rfl := Option.some.inj (hparent.symm.trans hbg')
    exact absurd hg hout
  · exact hb

end

/-! ## 5. Walks -/

theorem eraseDoomed_charts {ids X : List InstrId} {A : List BlockId} {u : Unit}
    (h : Charted n done ⟨V, [], [], S, A, ids ++ X⟩ t.program)
    (hids : ∀ i ∈ ids, Inside f t.program i) (herase : Walk.eraseDoomed ids t = .ok u t') :
    Charted n done ⟨V, [], [], S, A, X⟩ t'.program ∧ Leaves (· = f) t.program t'.program ∧
      t'.visited = t.visited ∧ t'.extra = t.extra := by
  induction ids generalizing t with
  | nil =>
    obtain ⟨-, rfl⟩ := pure_ok herase
    exact ⟨h, .refl h.enclosed.sound, rfl, rfl⟩
  | cons id ids ih =>
    have hrest : ∀ i ∈ ids, Inside f t.program i := fun i hi => hids i (List.mem_cons_of_mem _ hi)
    have hrelease : ∀ {p : Program}, Charted n done ⟨V, [], [], S, A, id :: ids ++ X⟩ p →
        (p.instr id).erased = true → Charted n done ⟨V, [], [], S, A, ids ++ X⟩ p := by
      intro p hp hgone
      refine hp.release (List.subset_cons_self _ _) fun i hi hnot => .inl ?_
      rw [(List.mem_cons.mp hi).resolve_right hnot]
      exact hgone
    unfold Walk.eraseDoomed at herase
    obtain ⟨_, _, hprogram, herase⟩ := bind_ok herase
    cases hprogram
    by_cases hgone : (t.program.instr id).erased = true
    · rw [if_pos hgone] at herase
      exact ih (hrelease h hgone) hrest herase
    · rw [if_neg hgone] at herase
      obtain ⟨_, t₁, hedit, herase⟩ := bind_ok herase
      obtain ⟨q, hdrop, rfl⟩ := walkEdit_ok.mp hedit
      obtain ⟨hlive, rfl⟩ := eraseInstr_ok.mp (attempt_ok.mp hdrop)
      have hin := (hids id List.mem_cons_self).2.resolve_left hgone
      have hl : Leaves (· = f) t.program (t.program.dropInstr id) :=
        leaves_dropInstr h.enclosed.sound hin
      have hdropped := hrelease (h.dropInstr List.mem_cons_self hlive)
        (by rw [instr_dropInstr_self (instr_lt_of_live hlive)])
      obtain ⟨hcharted, hl', hvisited, hextra⟩ := ih
        (t := { t with program := t.program.dropInstr id }) hdropped
        (fun i hi => hl.spares.inside hdropped.enclosed.sound (hrest i hi)) herase
      exact ⟨hcharted, hl.trans hl', hvisited, hextra⟩

theorem walkFullyBody_charts {depth : Nat} {A : List BlockId} {X doomed : List InstrId} {b : Bool}
    (hfollow : Charts n done (Walk.walkFully s.limits (specialiseFreely s entries) depth))
    (hdone : done ⊆ entries) (hready : Ready n done f t.program)
    (hcharted : Charted n done ⟨V, [f], [], S, A, X⟩ t.program)
    (hA : ∀ b ∈ A, ∃ g ∈ V, (t.program.block b).parent = some g) (hout : f ∉ V)
    (hbody : (t.program.func f).blocks ≠ []) (hvisited : t.visited = f :: V)
    (hdoomed : t.doomed = [])
    (h : Walk.walkFullyBody s.limits (specialiseFreely s entries) depth f doomed t = .ok b t') :
    ∃ S', Charted n done ⟨t'.visited, [], [], S', A, X⟩ t'.program ∧
      Further V S S' t t' ∧ t'.doomed = doomed ∧ f ∈ t'.visited := by
  unfold Walk.walkFullyBody at h
  obtain ⟨_, t₁, hfunction, h⟩ := bind_ok h
  obtain ⟨S₁, hcharted₁, hv, hwalked, hinside⟩ := visitFunction_charts hfollow hdone hready hcharted hA
    hout (List.head?_eq_some_head hbody) hvisited hdoomed hfunction
  obtain ⟨_, _, hget, h⟩ := bind_ok h
  cases hget
  obtain ⟨_, t₂, herase, h⟩ := bind_ok h
  obtain ⟨hcharted₂, hl, hvisited₂, hextra⟩ := eraseDoomed_charts hcharted₁ hinside herase
  cases h
  dsimp only
  rw [hvisited₂]
  have hp₁ := hcharted₁.enclosed.sound
  have hp₂ := hcharted₂.enclosed.sound
  have hretains : Retains V t₁.program t₂.program := hl.retains hp₁ (by rintro g hg rfl; exact hout hg)
  refine ⟨S₁, hcharted₂, ⟨hv.visited, hv.seen, fun g hg b hb hbg => ?_, hv.retains.trans hretains,
    ?_⟩, rfl, hwalked⟩
  · exact hv.known g hg b hb (hretains.parent_back hp₁ hp₂ hg hbg)
  · dsimp only
    rw [hl.functions, hextra]
    exact hv.count

theorem charts_over {A : List BlockId} {X : List InstrId}
    (hcharted : Charted n done ⟨t.visited, [k], [], S, A, X⟩ t.program)
    (hready : Ready n done k t.program) (hover : Walk.passesOver t k = true) :
    ∃ S', Charted n done ⟨t.visited, [], [], S', A, X⟩ t.program ∧
      Further t.visited S S' t t ∧ t.doomed = t.doomed ∧
      (k ∈ t.visited ∨ (t.program.func k).blocks = []) := by
  have hsettled : k ∈ t.visited ∨ (t.program.func k).blocks = [] := by
    simpa [Walk.passesOver, hready.live, Func.isDeclaration, or_comm] using hover
  refine ⟨S, hcharted.forget fun g hg => ?_, .refl hcharted.enclosed.sound, rfl, hsettled⟩
  rw [List.mem_singleton.mp hg]
  exact hsettled.imp_right fun hnone => ⟨func_lt_of_live hready.live, hnone⟩

theorem walkFully_over {limits : WalkLimits} {visit : Visitor Nat} {depth : Nat} {b : Bool}
    (hover : Walk.passesOver t k = true) (h : Walk.walkFully limits visit depth k t = .ok b t') :
    t' = t := by
  cases depth with
  | zero =>
    rw [Walk.walkFully_zero, if_pos hover] at h
    cases h
    rfl
  | succ depth =>
    rw [Walk.walkFully_succ, if_pos hover] at h
    cases h
    rfl

theorem walkFully_charts (hdone : done ⊆ entries) (depth : Nat) :
    Charts n done (Walk.walkFully s.limits (specialiseFreely s entries) depth) := by
  induction depth with
  | zero =>
    refine ⟨fun hnone => walkFully_over (by simp [Walk.passesOver, Func.isDeclaration, hnone]), ?_⟩
    intro k S A X t t' b hcharted hA hready h
    rw [Walk.walkFully_zero] at h
    split at h
    · cases h
      exact charts_over hcharted hready ‹_›
    · cases h
  | succ depth ih =>
    refine ⟨fun hnone => walkFully_over (by simp [Walk.passesOver, Func.isDeclaration, hnone]), ?_⟩
    intro k S A X t t' b hcharted hA hready h
    rw [Walk.walkFully_succ] at h
    split at h
    · cases h
      exact charts_over hcharted hready ‹_›
    rename_i hover
    simp only [Walk.passesOver, Bool.or_eq_true, not_or, List.contains_iff_mem] at hover
    obtain ⟨S', hcharted', hv, hdoomed, hwalked⟩ := walkFullyBody_charts
      (t := { t with visited := k :: t.visited, doomed := [] }) ih hdone hready hcharted hA hover.2
      (by simpa [Func.isDeclaration] using hover.1.2) rfl rfl h
    refine ⟨S', hcharted', ⟨?_, hv.seen, hv.known, hv.retains, hv.count⟩, hdoomed, .inl hwalked⟩
    exact fun g hg => hv.visited (List.mem_cons_of_mem k hg)

/-! ## 6. Entry points -/

theorem settles_next {γ γ' : Chart} {p q : Program} (h : γ.Settles p f)
    (hwalked : γ.walked ⊆ γ'.walked) (hretains : Retains V p q) : γ'.Settles q f :=
  h.imp (fun hf => hwalked hf) fun ⟨hlt, hnone⟩ =>
    ⟨Nat.lt_of_lt_of_le hlt hretains.spares.buries.functions, hretains.bodies f hlt hnone⟩

theorem walkEntry_charts {entry : FuncId} {p₁ : Program} {b : Bool} {depth : Nat}
    (h : Charted n done ⟨t.visited, [], [], S, [], []⟩ t.program)
    (hentries : done ++ [entry] ⊆ entries) (hold : entry.index < n) (hnew : entry ∉ done)
    (hlive : (t.program.func entry).erased = false ∨ (t.program.func entry).blocks = [])
    (hfold : foldControlFlow (Replacing.controlFlowRules s.assumeNoExcept) entry t.program =
      .ok m p₁)
    (hwalk : Walk.walkFully s.limits (specialiseFreely s entries) depth entry
      { t with program := p₁ } = .ok b t') :
    ∃ S', Charted n (done ++ [entry]) ⟨t'.visited, [], [], S', [], []⟩ t'.program ∧
      Chart.Settles ⟨t'.visited, [], [], S', [], []⟩ t'.program entry ∧
      Further t.visited S S' t t' := by
  have hwide := h.widen (List.subset_append_left done [entry])
  by_cases hnone : (t.program.func entry).blocks = []
  -- without a body there is nothing to do
  · rw [foldControlFlow_hollow hnone hfold] at hwalk
    obtain rfl := walkFully_over (by simp [Walk.passesOver, Func.isDeclaration, hnone]) hwalk
    exact ⟨S, hwide, .inr ⟨Nat.lt_of_lt_of_le hold h.old, hnone⟩, .refl h.enclosed.sound⟩
  have hout : entry ∉ t.visited := fun hmem =>
    (h.walked entry hmem).2.elim hnew fun hge => absurd hold (Nat.not_lt.mpr hge)
  obtain ⟨hfolded, hl, hfunc⟩ := hwide.fold (hlive.resolve_right hnone) hout hfold
  have hready : Ready n (done ++ [entry]) entry p₁ := by
    refine ⟨?_, .inl (List.mem_append_right _ (List.mem_singleton_self _))⟩
    rw [hfunc]
    exact hlive.resolve_right hnone
  have hretains : Retains t.visited t.program p₁ := hl.retains h.enclosed.sound (by
    rintro g hg rfl
    exact hout hg)
  obtain ⟨S', hcharted, hv, -, hsettled⟩ := (walkFully_charts hentries depth).walks
    (t := { t with program := p₁ }) (hfolded.expect entry) (fun _ h => absurd h List.not_mem_nil) hready hwalk
  have hv₁ : Further t.visited S S t { t with program := p₁ } := by
    refine ⟨fun _ h => h, fun _ h => h, fun _ _ _ hb _ => hb, hretains, ?_⟩
    dsimp only
    rw [hl.functions]
  refine ⟨S', hcharted, hsettled.imp_right fun hnone => ⟨?_, hnone⟩,
    hv₁.trans hv hfolded.enclosed.sound hcharted.enclosed.sound⟩
  exact Nat.lt_of_lt_of_le hold hcharted.old

theorem expandFreely_charts {rest : List FuncId} {u : Unit}
    (h : Charted n done ⟨t.visited, [], [], S, [], []⟩ t.program)
    (hentries : done ++ rest ⊆ entries) (hold : ∀ f ∈ rest, f.index < n)
    (hnodup : (done ++ rest).Nodup)
    (hlive : ∀ f ∈ rest, (t.program.func f).erased = false ∨ (t.program.func f).blocks = [])
    (hsettled : ∀ f ∈ done, Chart.Settles ⟨t.visited, [], [], S, [], []⟩ t.program f)
    (hexpand : expandFreely s entries rest t = .ok u t') :
    ∃ S', Charted n (done ++ rest) ⟨t'.visited, [], [], S', [], []⟩ t'.program ∧
      (∀ f ∈ done ++ rest, Chart.Settles ⟨t'.visited, [], [], S', [], []⟩ t'.program f) ∧
      t'.program.functions.size + t.extra = t.program.functions.size + t'.extra := by
  induction rest generalizing done S t with
  | nil =>
    obtain ⟨-, rfl⟩ := pure_ok hexpand
    rw [List.append_nil]
    exact ⟨S, h, hsettled, rfl⟩
  | cons entry rest ih =>
    unfold expandFreely at hexpand
    obtain ⟨_, t₁, hcompile, hexpand⟩ := bind_ok hexpand
    obtain ⟨p₁, hfold, rfl⟩ := walkCompile_ok.mp hcompile
    obtain ⟨_, t₂, hwalk, hexpand⟩ := bind_ok hexpand
    rw [List.append_cons] at hentries hnodup ⊢
    have hnew : entry ∉ done := fun hmem =>
      (List.nodup_append.mp (List.nodup_append.mp hnodup).1).2.2 entry hmem entry
        (List.mem_singleton_self entry) rfl
    obtain ⟨S₁, h₁, hentry, hv⟩ := walkEntry_charts h
      (List.Subset.trans (List.subset_append_left _ _) hentries) (hold entry List.mem_cons_self) hnew
      (hlive entry List.mem_cons_self) hfold hwalk
    have hlive₁ : ∀ f ∈ rest, (t₂.program.func f).erased = false ∨
        (t₂.program.func f).blocks = [] := by
      intro f hf
      have hmem := List.mem_cons_of_mem entry hf
      exact hv.retains.spares.hollow f (Nat.lt_of_lt_of_le (hold f hmem) h.old) (hlive f hmem)
    have hsettled₁ : ∀ f ∈ done ++ [entry],
        Chart.Settles ⟨t₂.visited, [], [], S₁, [], []⟩ t₂.program f := by
      intro f hf
      rcases List.mem_append.mp hf with hf | hf
      · exact settles_next (hsettled f hf) hv.visited hv.retains
      · rw [List.mem_singleton.mp hf]
        exact hentry
    obtain ⟨S', h', hsettled', hcount⟩ := ih h₁ hentries
      (fun f hf => hold f (List.mem_cons_of_mem _ hf)) hnodup hlive₁ hsettled₁ hexpand
    have hcount₁ := hv.count
    exact ⟨S', h', hsettled', by omega⟩

/-- Every defined function on the path but the entry points is a copy of the run, and is called from
    one place. The run must be `unhindered`: the depth suffices, entry points are not called, and a
    function with a body is only called by a plain call with as many arguments as parameters. -/
theorem specialiseCalls_unshared {q : Program} (hp : p.Sound) (hverify : p.verify = .ok ())
    (hfree : unhindered s p = true) (h : specialiseCalls s p = .ok n q) :
    q.functions.size = p.functions.size + n ∧
      ∀ k, q.OnPath (s.entryPoints p) (.func k) → (q.func k).isDeclaration = false →
        k ∉ s.entryPoints p → p.functions.size ≤ k.index ∧
          ∃! i, i ∈ Cleanup.attachedInstrs q ∧ (q.instr i).calledFunction? = some k := by
  obtain ⟨t, rfl, rfl, hrun⟩ := expandFreely_of_unhindered hfree h
  have hlive : ∀ f ∈ s.entryPoints p, (p.func f).erased = false := fun f hf =>
    mem_liveFunctions.mp (List.mem_filter.mp hf).1
  have henclosed := Verified.enclosed hp (verify_ok.mp hverify)
  have hlow : ∀ f i k, (p.func f).erased = false → p.functionOf? i = some f →
      .func k ∈ (p.instr i).operands → ¬ p.functions.size ≤ k.index := fun f i k hf hi hk =>
    Nat.not_le.mpr (henclosed.operands f i hf hi _ hk)
  -- at the start nothing is known, and there are no copies
  have hstart : Charted p.functions.size [] ⟨[], [], [], [], [], []⟩ p := by
    refine ⟨henclosed, Nat.le_refl _, nofun, fun k hn hk => absurd hk (Nat.not_lt.mpr hn),
      fun f i k hf hi hk hn => absurd hn (hlow f i k hf hi hk),
      fun f _ i _ k hf _ hi _ hk _ hn => absurd hn (hlow f i k hf hi hk), nofun, nofun, nofun,
      nofun⟩
  obtain ⟨S, hcharted, hsettled, hcount⟩ := expandFreely_charts
    (t := { program := p, extra := 0 }) hstart (fun _ h => h)
    (fun f hf => func_lt_of_live (hlive f hf)) (p.nodup_liveFunctions.filter _)
    (fun f hf => .inl (hlive f hf)) nofun hrun
  refine ⟨hcount, fun k hk hdefined hnot => ?_⟩
  have hwalked : k ∈ t.visited := by
    refine ((hcharted.onPath hsettled hk).1 k rfl).resolve_right ?_
    rintro ⟨-, hnone⟩
    simp [Func.isDeclaration, hnone] at hdefined
  obtain ⟨hk', horigin⟩ := hcharted.walked k hwalked
  have hcopy := horigin.resolve_left hnot
  exact ⟨hcopy, hcharted.existsUnique_call hcopy (func_lt_of_live hk')⟩

/-- A function that calls itself once if its argument is one, called twice. -/
def stepping : Program where
  name := "stepping"
  functions := #[
    ⟨"Main", .void, [], false, none, none, [.pair "EntryPoint" none], [⟨0⟩], false⟩,
    ⟨"Step", .void, [⟨some "c", .int 1⟩], false, none, none, [], [⟨1⟩, ⟨2⟩, ⟨3⟩], false⟩]
  blocks := #[
    ⟨some "entry", some ⟨0⟩, [⟨0⟩, ⟨1⟩, ⟨2⟩], false⟩,
    ⟨some "entry", some ⟨1⟩, [⟨3⟩], false⟩,
    ⟨some "again", some ⟨1⟩, [⟨4⟩, ⟨5⟩], false⟩,
    ⟨some "done", some ⟨1⟩, [⟨6⟩], false⟩]
  instrs := #[
    ⟨.call .none, .void, [.int 1 1, .func ⟨1⟩], none, some ⟨0⟩, false⟩,
    ⟨.call .none, .void, [.int 1 1, .func ⟨1⟩], none, some ⟨0⟩, false⟩,
    ⟨.ret, .void, [], none, some ⟨0⟩, false⟩,
    ⟨.br, .void, [.arg ⟨1⟩ 0, .block ⟨3⟩, .block ⟨2⟩], none, some ⟨1⟩, false⟩,
    ⟨.call .none, .void, [.int 1 0, .func ⟨1⟩], none, some ⟨2⟩, false⟩,
    ⟨.br, .void, [.block ⟨3⟩], none, some ⟨2⟩, false⟩,
    ⟨.ret, .void, [], none, some ⟨3⟩, false⟩]

theorem specialiseCalls_unshared_stepping : ∃ n q, specialiseCalls {} stepping = .ok n q ∧
    q.functions.size = 2 + n ∧ q.OnPath [⟨0⟩] (.func ⟨2⟩) ∧ 2 ≤ (⟨2⟩ : FuncId).index ∧
      ∃! i, i ∈ Cleanup.attachedInstrs q ∧ (q.instr i).calledFunction? = some ⟨2⟩ := by
  obtain ⟨n, q, hrun, hentry, hbody, hcalls⟩ := exists_ok (r := specialiseCalls {} stepping)
    (P := fun q => (q.func ⟨0⟩).entryBlock? = some ⟨0⟩ ∧ (q.func ⟨2⟩).isDeclaration = false ∧
      ∃ i ∈ (q.block ⟨0⟩).instrs, (q.instr i).calledFunction? = some ⟨2⟩) (by decide +kernel)
  obtain ⟨i, hi, hcall⟩ := hcalls
  have hpath : q.OnPath [⟨0⟩] (.func ⟨2⟩) := .call (.enter (.entry List.mem_cons_self) hentry) hi hcall
  obtain ⟨hsize, hunshared⟩ := specialiseCalls_unshared (by decide +kernel) (by rfl)
    (by decide +kernel) hrun
  have hentries : ({} : TransformSettings).entryPoints stepping = [⟨0⟩] := by decide +kernel
  rw [hentries] at hunshared
  exact ⟨n, q, hrun, hsize, hpath, hunshared _ hpath hbody (by decide)⟩

/-- A program whose entry point is left by an invoke that does not say where it goes on. -/
def undirected : Program where
  name := "undirected"
  functions := #[
    ⟨"Main", .void, [], false, none, none, [.pair "EntryPoint" none], [⟨0⟩], false⟩,
    ⟨"F", .void, [], false, none, none, [], [⟨1⟩], false⟩]
  blocks := #[
    ⟨some "entry", some ⟨0⟩, [⟨0⟩], false⟩,
    ⟨some "entry", some ⟨1⟩, [⟨1⟩], false⟩]
  instrs := #[
    ⟨.invoke, .void, [.func ⟨1⟩], none, some ⟨0⟩, false⟩,
    ⟨.ret, .void, [], none, some ⟨1⟩, false⟩]

/-- An invoke without its two destinations is not lowered and gets no copy, though the walk follows
    it: both functions are walked, the invoke gives all arguments, and `F` is called as it was. -/
theorem invoke_keeps_original : undirected.Sound ∧ undirected.verify = .ok () ∧
    (undirected.func ⟨1⟩).varArg = false ∧
    (undirected.func ⟨1⟩).params.length = (undirected.instr ⟨0⟩).arguments.length ∧
    (∃ u t, expandEntries { assumeNoExcept := true } [⟨0⟩] { program := undirected, extra := 0 } =
      .ok u t ∧ t.visited = [⟨1⟩, ⟨0⟩]) ∧
    ∃ n q, specialiseCalls { assumeNoExcept := true } undirected = .ok n q ∧ n = 0 ∧
      q.OnPath [⟨0⟩] (.func ⟨1⟩) ∧ (q.func ⟨1⟩).isDeclaration = false := by
  refine ⟨by decide +kernel, by rfl, rfl, rfl, exists_ok (by decide +kernel), ?_⟩
  obtain ⟨n, q, hrun, hn, hentry, hin, hcall, hbody⟩ := exists_answer
    (r := specialiseCalls { assumeNoExcept := true } undirected)
    (P := fun n q => n = 0 ∧ (q.func ⟨0⟩).entryBlock? = some ⟨0⟩ ∧ ⟨0⟩ ∈ (q.block ⟨0⟩).instrs ∧
      (q.instr ⟨0⟩).calledFunction? = some ⟨1⟩ ∧ (q.func ⟨1⟩).isDeclaration = false)
    (by decide +kernel)
  exact ⟨n, q, hrun, hn, .call (.enter (.entry List.mem_cons_self) hentry) hin hcall, hbody⟩

end Transform

end QirProfile
