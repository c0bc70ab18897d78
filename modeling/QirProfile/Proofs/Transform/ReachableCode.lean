import Mathlib.Data.List.Fold
import Mathlib.Data.List.Nodup
import Mathlib.Logic.Relation
import QirProfile.Proofs.Transform.VisitedOnce

/-!
# A walk visits what can be reached, and all of it once

What can be reached from a function is meant by `Program.LeadsTo`: a function leads to its entry
block, a block to its instructions, an instruction to the blocks where control goes from it and to
the defined function that it calls.

A walk comes to these values in an order of its own: it follows a call in the middle of a block, and
takes up the blocks of a function from a queue. `Records` is what holds of the values visited so far,
`Adds` what a part of the walk adds to them: what has been added is followed up, but for what is
still pending, and nothing of a function that is being walked is added elsewhere.
-/

namespace QirProfile

namespace Program

/-! ## 1. What can be reached -/

/-- A value on the way leads to the next one. -/
inductive LeadsTo (p : Program) : Value → Value → Prop where
  | entry {f : FuncId} {b : BlockId} (h : (p.func f).entryBlock? = some b) :
      LeadsTo p (.func f) (.block b)
  | instr {b : BlockId} {i : InstrId} (h : i ∈ (p.block b).instrs) : LeadsTo p (.block b) (.instr i)
  | next {i : InstrId} {c : BlockId} (h : c ∈ (p.instr i).taken) : LeadsTo p (.instr i) (.block c)
  | called {i : InstrId} {k : FuncId} (h : (p.instr i).calledFunction? = some k)
      (hdefined : (p.func k).isDeclaration = false) : LeadsTo p (.instr i) (.func k)

/-- What can be reached from a function. -/
def Reachable (p : Program) (start : FuncId) : Value → Prop :=
  Relation.ReflTransGen p.LeadsTo (.func start)

/-- The functions that have a body. -/
def definedFunctions (p : Program) : List FuncId :=
  p.liveFunctions.filter fun f => !(p.func f).isDeclaration

/-- The function that a value on the way belongs to. -/
def ownerOf? (p : Program) : Value → Option FuncId
  | .func f => some f
  | .block b => (p.block b).parent
  | .instr i => p.functionOf? i
  | _ => none

variable {p : Program} {start f : FuncId} {b : BlockId} {i : InstrId}

theorem mem_definedFunctions :
    f ∈ p.definedFunctions ↔ (p.func f).erased = false ∧ (p.func f).isDeclaration = false := by
  unfold definedFunctions
  rw [List.mem_filter, mem_liveFunctions, Bool.not_eq_true']

theorem Reachable.entry (h : p.Reachable start (.func f)) (hb : (p.func f).entryBlock? = some b) :
    p.Reachable start (.block b) :=
  h.tail (.entry hb)

theorem Reachable.instr (h : p.Reachable start (.block b)) (hi : i ∈ (p.block b).instrs) :
    p.Reachable start (.instr i) :=
  h.tail (.instr hi)

theorem Reachable.next {c : BlockId} (h : p.Reachable start (.instr i))
    (hc : c ∈ (p.instr i).taken) : p.Reachable start (.block c) :=
  h.tail (.next hc)

theorem Reachable.called {k : FuncId} (h : p.Reachable start (.instr i))
    (hk : (p.instr i).calledFunction? = some k) (hdefined : (p.func k).isDeclaration = false) :
    p.Reachable start (.func k) :=
  h.tail (.called hk hdefined)

end Program

namespace Walk

open Program

/-! ## 2. A visitor that remembers what it visits -/

/-- Remembers what is visited, the last value first. -/
def record : Visitor (List Value) := fun v t => .ok (some v) { t with extra := v :: t.extra }

/-- What holds of the values that a walk from `start` has visited. -/
structure Records (p : Program) (start : FuncId) (t : PathState (List Value)) : Prop where
  program : t.program = p
  /-- Nothing was visited twice. -/
  nodup : t.extra.Nodup
  reachable : ∀ v ∈ t.extra, p.Reachable start v
  /-- Functions that were entered are noted in both ways. -/
  entered : ∀ f, .func f ∈ t.extra ↔ f ∈ t.visited
  books : t.visited.Nodup
  defined : ∀ f ∈ t.visited, f ∈ p.definedFunctions
  /-- Blocks and instructions are visited in functions that were entered. -/
  owned : ∀ v ∈ t.extra, ∃ f ∈ t.visited, p.ownerOf? v = some f
  /-- An instruction is visited after its block. -/
  listed : ∀ {b i}, .instr i ∈ t.extra → i ∈ (p.block b).instrs → .block b ∈ t.extra

/-- What visits add from `s` to `t`: the values in `own`, and values of functions that had not been
    entered in `s`. What they lead to is added too, or it is pending. -/
structure Adds (p : Program) (own pending : List Value) (s t : PathState (List Value)) : Prop where
  visited : s.visited ⊆ t.visited
  old : s.extra ⊆ t.extra
  doomed : t.doomed = s.doomed
  followed : ∀ v ∈ t.extra, v ∈ s.extra ∨ ∀ w, p.LeadsTo v w → w ∈ t.extra ∨ w ∈ pending
  elsewhere : ∀ v ∈ t.extra, v ∈ s.extra ∨ v ∈ own ∨ ∀ g ∈ s.visited, p.ownerOf? v ≠ some g

section

variable {p : Program} {own own' pending pending' : List Value} {s t u : PathState (List Value)}

theorem Adds.refl (own pending : List Value) (s : PathState (List Value)) :
    Adds p own pending s s :=
  ⟨fun _ h => h, fun _ h => h, rfl, fun _ h => .inl h, fun _ h => .inl h⟩

theorem Adds.trans (h₁ : Adds p own pending s t) (h₂ : Adds p own' pending' t u)
    (hpending : ∀ w ∈ pending, w ∈ u.extra ∨ w ∈ pending') :
    Adds p (own ++ own') pending' s u where
  visited := List.Subset.trans h₁.visited h₂.visited
  old := List.Subset.trans h₁.old h₂.old
  doomed := h₂.doomed.trans h₁.doomed
  followed v hv := by
    rcases h₂.followed v hv with hv | hv
    · refine (h₁.followed v hv).imp_right fun hnext w hw => ?_
      exact (hnext w hw).elim (fun h => .inl (h₂.old h)) (hpending w)
    · exact .inr hv
  elsewhere v hv := by
    rcases h₂.elsewhere v hv with hv | hv | hv
    · exact (h₁.elsewhere v hv).imp_right (Or.imp_left (List.mem_append_left own'))
    · exact .inr (.inl (List.mem_append_right own hv))
    · exact .inr (.inr fun g hg => hv g (h₁.visited hg))

theorem Adds.forget (h : Adds p own pending s t)
    (hown : ∀ v ∈ own, ∀ g ∈ s.visited, p.ownerOf? v ≠ some g) : Adds p [] pending s t where
  visited := h.visited
  old := h.old
  doomed := h.doomed
  followed := h.followed
  elsewhere v hv := (h.elsewhere v hv).imp_right fun hv => .inr (hv.elim (hown v) id)

theorem Records.reads {start : FuncId} (h : Records p start t) :
    (Walk.program : Walk (List Value) Program) t = .ok p t := by
  rw [← h.program]
  rfl

theorem Records.mem_visited {start k : FuncId} (h : Records p start t)
    (hlength : p.definedFunctions.length ≤ t.visited.length) (hk : k ∈ p.definedFunctions) :
    k ∈ t.visited := by
  have hperm := (h.books.subperm h.defined).perm_of_length_le hlength
  exact hperm.mem_iff.mpr hk

end

/-! ## 3. One function -/

/-- What is asked of the walk of a called function, at most `depth` calls deep: it is enough for the
    functions that have not been entered. -/
def Follows (p : Program) (start : FuncId) (depth : Nat) (follow : FuncId → Walk (List Value) Bool) :
    Prop :=
  ∀ k t, (p.func k).erased = false → ((p.func k).isDeclaration = false → p.Reachable start (.func k)) →
    p.definedFunctions.length ≤ depth + t.visited.length → Records p start t →
    ComesTo (follow k) t (fun _ => False) fun walked u => Records p start u ∧ Adds p [] [] t u ∧
      ((p.func k).isDeclaration = false → k ∈ u.visited) ∧ (walked = true ∨ u = t)

section

variable {p : Program} {start f : FuncId} {limits : WalkLimits} {depth : Nat}
  {follow : FuncId → Walk (List Value) Bool} {s t : PathState (List Value)} {front : Frontier}
  {b : BlockId} {i : InstrId}

variable (hp : p.Sound) (hv : p.Verified)
  (hexcept : limits.assumeNoExcept = true ∨
    ∀ i, p.Reachable start (.instr i) → (p.instr i).isInvoke = false)
  (hfollow : Follows p start depth follow)

include hp hv hexcept hfollow

theorem visitInstr_records (hlive : (p.func f).erased = false) (hf : f ∈ t.visited)
    (hdepth : p.definedFunctions.length ≤ depth + t.visited.length) (ht : Records p start t)
    (hb : (p.block b).parent = some f) (hblock : .block b ∈ t.extra) (hi : i ∈ (p.block b).instrs)
    (hnew : .instr i ∉ t.extra) :
    ComesTo (visitInstr limits record follow f front i) t (fun _ => False) fun front' u =>
      Records p start u ∧ Adds p [.instr i] ((p.instr i).taken.map .block) t u ∧
        .instr i ∈ u.extra ∧ front' = (p.instr i).taken.foldl Frontier.push front := by
  have hreach := (ht.reachable _ hblock).instr hi
  have hgo : ∀ {u}, Records p start u → Adds p [.instr i] ((p.instr i).taken.map .block) t u →
      .instr i ∈ u.extra → ComesTo (goOn limits f front i) u (fun _ => False) fun front' u =>
        Records p start u ∧ Adds p [.instr i] ((p.instr i).taken.map .block) t u ∧
          .instr i ∈ u.extra ∧ front' = (p.instr i).taken.foldl Frontier.push front := by
    intro u hu hadds hmem
    unfold goOn
    refine ComesTo.after hu.reads ?_
    have hplain : ¬ ((p.instr i).isInvoke = true ∧ limits.assumeNoExcept = false) := by
      rintro ⟨hinvoke, hno⟩
      rcases hexcept with hyes | hnone
      · rw [hyes] at hno
        cases hno
      · rw [hnone i hreach] at hinvoke
        cases hinvoke
    rw [targets_apply, if_neg hplain]
    exact comesTo_of_ok rfl ⟨hu, hadds, hmem, rfl⟩
  have hself : Records p start { t with extra := .instr i :: t.extra } := by
    refine ⟨ht.program, List.nodup_cons.mpr ⟨hnew, ht.nodup⟩,
      List.forall_mem_cons.mpr ⟨hreach, ht.reachable⟩, fun g => ?_, ht.books, ht.defined,
      List.forall_mem_cons.mpr ⟨⟨f, hf, hp.functionOf_of_parent hb hi⟩, ht.owned⟩, ?_⟩
    · rw [List.mem_cons, ← ht.entered g]
      exact or_iff_right nofun
    · intro c j hj hlisted
      rcases List.mem_cons.mp hj with hj | hj
      · cases hj
        rw [Option.some.inj ((hp.mem_instrs.mp hlisted).symm.trans (hp.mem_instrs.mp hi))]
        exact List.mem_cons_of_mem _ hblock
      · exact List.mem_cons_of_mem _ (ht.listed hj hlisted)
  have hadds : ∀ pending, (∀ w, p.LeadsTo (.instr i) w → w ∈ pending) →
      Adds p [.instr i] pending t { t with extra := .instr i :: t.extra } := by
    intro pending hpending
    refine ⟨fun _ h => h, fun _ h => List.mem_cons_of_mem _ h, rfl, fun v hv => ?_, fun v hv => ?_⟩
    · rcases List.mem_cons.mp hv with rfl | hv
      · exact .inr fun w hw => .inr (hpending w hw)
      · exact .inl hv
    · rcases List.mem_cons.mp hv with rfl | hv
      · exact .inr (.inl (List.mem_singleton_self _))
      · exact .inl hv
  unfold visitInstr
  refine ComesTo.after ht.reads ?_
  rw [if_neg (by simp [hp.instr_live hi])]
  refine ComesTo.after (rfl : record (.instr i) t = .ok (some (.instr i)) _) ?_
  refine ComesTo.after hself.reads ?_
  dsimp only [Value.toInstr?, Option.bind_some]
  cases hcall : (p.instr i).calledFunction? with
  | none =>
    refine hgo hself (hadds _ fun w hw => ?_) List.mem_cons_self
    cases hw with
    | next hc => exact List.mem_map_of_mem hc
    | called hk _ =>
      rw [hcall] at hk
      cases hk
  | some k =>
    have hk := hv.called_live hp hlive hb hi hcall
    refine ComesTo.bind (ComesTo.discard ?_)
    refine (hfollow k { t with extra := .instr i :: t.extra } hk
      (fun hdefined => hreach.called hcall hdefined) hdepth hself).mono (fun _ he => he) ?_
    rintro _ u ⟨hu, hcalled, hentered, -⟩
    refine hgo hu ?_ (hcalled.old List.mem_cons_self)
    -- the called function was pending, and now it has been entered
    have hcalls := hadds ((p.instr i).taken.map .block ++
      if (p.func k).isDeclaration then [] else [.func k]) ?_
    · have hrest : Adds p [] ((p.instr i).taken.map .block)
          { t with extra := .instr i :: t.extra } u :=
        ⟨hcalled.visited, hcalled.old, hcalled.doomed, fun v hv => (hcalled.followed v hv).imp_right
          fun h w hw => .inl ((h w hw).resolve_right List.not_mem_nil), hcalled.elsewhere⟩
      refine hcalls.trans hrest ?_
      · intro w hw
        rcases List.mem_append.mp hw with hw | hw
        · exact .inr hw
        · split at hw
          · cases hw
          · rename_i hdefined
            rw [List.mem_singleton.mp hw]
            exact .inl ((hu.entered k).mpr (hentered (Bool.eq_false_iff.mpr hdefined)))
    · intro w hw
      cases hw with
      | next hc => exact List.mem_append_left _ (List.mem_map_of_mem hc)
      | called hk' hdefined =>
        obtain rfl := Option.some.inj (hcall.symm.trans hk')
        rw [hdefined]
        exact List.mem_append_right _ (List.mem_singleton_self _)

theorem visitBlock_records (hlive : (p.func f).erased = false) (hf : f ∈ t.visited)
    (hdepth : p.definedFunctions.length ≤ depth + t.visited.length) (ht : Records p start t)
    (hb : (p.block b).parent = some f) (hreach : p.Reachable start (.block b))
    (hnew : .block b ∉ t.extra) :
    ComesTo (visitBlock limits record follow f front b) t (fun _ => False) fun front' u =>
      Records p start u ∧ .block b ∈ u.extra ∧
        Adds p (.block b :: (p.block b).instrs.map .instr)
          (((p.block b).instrs.flatMap fun i => (p.instr i).taken).map .block) t u ∧
        front' = p.queueBehind front b := by
  have hself : Records p start { t with extra := .block b :: t.extra } := by
    refine ⟨ht.program, List.nodup_cons.mpr ⟨hnew, ht.nodup⟩,
      List.forall_mem_cons.mpr ⟨hreach, ht.reachable⟩, fun g => ?_, ht.books, ht.defined,
      List.forall_mem_cons.mpr ⟨⟨f, hf, hb⟩, ht.owned⟩, fun {c j} hj hlisted => ?_⟩
    · rw [List.mem_cons, ← ht.entered g]
      exact or_iff_right nofun
    · rcases List.mem_cons.mp hj with hj | hj
      · cases hj
      · exact List.mem_cons_of_mem _ (ht.listed hj hlisted)
  unfold visitBlock
  refine ComesTo.after ht.reads ?_
  rw [if_neg (by simp [hp.block_live_of_listed (hp.mem_blocks.mpr hb)])]
  refine ComesTo.after (rfl : record (.block b) t = .ok (some (.block b)) _) ?_
  refine ComesTo.after hself.reads ?_
  -- what has been seen of the block, what is left of it, and what has been queued
  refine (comesTo_foldlM (fun rest front' u => ∃ seen, (p.block b).instrs = seen ++ rest ∧
    Records p start u ∧ .block b ∈ u.extra ∧ Adds p (.block b :: seen.map .instr)
      ((seen.flatMap fun i => (p.instr i).taken).map .block ++ rest.map .instr) t u ∧
    front' = (seen.flatMap fun i => (p.instr i).taken).foldl Frontier.push front) ?_ ?_).mono
    (fun _ he => he) ?_
  · refine ⟨[], rfl, hself, List.mem_cons_self, ?_, rfl⟩
    refine ⟨fun _ h => h, fun _ h => List.mem_cons_of_mem _ h, rfl, fun v hv => ?_, fun v hv => ?_⟩
    · rcases List.mem_cons.mp hv with rfl | hv
      · refine .inr fun w hw => ?_
        cases hw with
        | instr hi => exact .inr (List.mem_map_of_mem hi)
      · exact .inl hv
    · rcases List.mem_cons.mp hv with rfl | hv
      · exact .inr (.inl List.mem_cons_self)
      · exact .inl hv
  · rintro i rest front' u ⟨seen, hsplit, hu, hblock, hadds, rfl⟩
    have hi : i ∈ (p.block b).instrs := by
      rw [hsplit]
      exact List.mem_append_right seen List.mem_cons_self
    have hnodup := hp.nodup_instrs b
    rw [hsplit] at hnodup
    have hseen : i ∉ seen := fun hmem =>
      (List.nodup_cons.mp (List.nodup_middle.mp hnodup)).1 (List.mem_append_left rest hmem)
    have hfresh : .instr i ∉ u.extra := fun hmem => by
      rcases hadds.elsewhere _ hmem with hmem | hmem | hother
      · exact hnew (ht.listed hmem hi)
      · rcases List.mem_cons.mp hmem with hmem | hmem
        · cases hmem
        · obtain ⟨j, hj, heq⟩ := List.mem_map.mp hmem
          cases heq
          exact hseen hj
      · exact hother f hf (hp.functionOf_of_parent hb hi)
    have hdepth' := Nat.le_trans hdepth (Nat.add_le_add_left
      (ht.books.subperm hadds.visited).length_le depth)
    refine (visitInstr_records hp hv hexcept hfollow hlive (hadds.visited hf) hdepth' hu hb hblock hi
      hfresh).mono (fun _ he => he) ?_
    rintro front'' w ⟨hw, hstep, hmem, rfl⟩
    have hpending : ((p.instr i).taken.map .block : List Value) ⊆
        ((seen ++ [i]).flatMap fun i => (p.instr i).taken).map .block ++ rest.map .instr := by
      rw [List.flatMap_append, List.flatMap_singleton, List.map_append]
      exact fun v hv => List.mem_append_left _ (List.mem_append_right _ hv)
    have hnext : Adds p [.instr i] (((seen ++ [i]).flatMap fun i => (p.instr i).taken).map .block ++
        rest.map .instr) u w :=
      ⟨hstep.visited, hstep.old, hstep.doomed, fun v hv =>
        (hstep.followed v hv).imp_right fun h w hw => (h w hw).imp_right fun h => hpending h,
        hstep.elsewhere⟩
    have hall := hadds.trans hnext ?_
    · refine ⟨seen ++ [i], by rw [hsplit, List.append_assoc]; rfl, hw, hstep.old hblock, ?_, ?_⟩
      · rw [List.map_append]
        exact hall
      · rw [List.flatMap_append, List.foldl_append, List.flatMap_singleton]
    · intro v hv
      rcases List.mem_append.mp hv with hv | hv
      · refine .inr (List.mem_append_left _ ?_)
        rw [List.flatMap_append, List.map_append]
        exact List.mem_append_left _ hv
      · rcases List.mem_cons.mp hv with rfl | hv
        · exact .inl hmem
        · exact .inr (List.mem_append_right _ hv)
  · rintro front' u ⟨seen, hsplit, hu, hblock, hadds, rfl⟩
    rw [List.append_nil] at hsplit
    subst hsplit
    rw [List.map_nil, List.append_nil] at hadds
    exact ⟨hu, hblock, hadds, rfl⟩

/-- What holds while the blocks of the function `f` are visited, which was entered after `s`. -/
structure Queueing (p : Program) (start f : FuncId) (s : PathState (List Value)) (front : Frontier)
    (t : PathState (List Value)) : Prop where
  records : Records p start t
  adds : Adds p [] (front.queue.map .block) s t
  outside : f ∉ s.visited
  inside : f ∈ t.visited
  reachable : ∀ c ∈ front.queued, p.Reachable start (.block c) ∧ (p.block c).parent = some f
  queued : ∀ c ∈ front.queued, .block c ∈ t.extra ∨ c ∈ front.queue
  known : ∀ c, .block c ∈ t.extra → (p.block c).parent = some f → c ∈ front.queued
  fresh : ∀ c ∈ front.queue, .block c ∉ t.extra
  inQueue : front.queue ⊆ front.queued
  distinct : front.queue.Nodup
  nodup : front.queued.Nodup

omit hv hexcept hfollow in
theorem queueing_start {k : FuncId} {entry : BlockId} (ht : Records p start t)
    (hk : k ∈ p.definedFunctions) (hnew : k ∉ t.visited) (hreach : p.Reachable start (.func k))
    (hentry : (p.func k).entryBlock? = some entry) :
    Queueing p start k { t with doomed := [] } (.start entry)
      { t with visited := k :: t.visited, doomed := [], extra := .func k :: t.extra } := by
  have hinside : (p.block entry).parent = some k :=
    hp.mem_blocks.mp (List.mem_of_mem_head? hentry)
  -- nothing of the function has been visited before
  have hnone : ∀ c, .block c ∈ (.func k :: t.extra : List Value) → (p.block c).parent ≠ some k := by
    intro c hc hparent
    obtain ⟨g, hg, hown⟩ := ht.owned _ ((List.mem_cons.mp hc).resolve_left nofun)
    exact hnew (Option.some.inj (hparent.symm.trans hown) ▸ hg)
  have hrecords : Records p start
      { t with visited := k :: t.visited, doomed := [], extra := .func k :: t.extra } := by
    refine ⟨ht.program, List.nodup_cons.mpr ⟨fun hmem => hnew ((ht.entered k).mp hmem), ht.nodup⟩,
      List.forall_mem_cons.mpr ⟨hreach, ht.reachable⟩, fun g => ?_,
      List.nodup_cons.mpr ⟨hnew, ht.books⟩, List.forall_mem_cons.mpr ⟨hk, ht.defined⟩,
      List.forall_mem_cons.mpr ⟨⟨k, List.mem_cons_self, rfl⟩, fun v hv => ?_⟩,
      fun {c j} hj hlisted => ?_⟩
    · rw [List.mem_cons, List.mem_cons, ht.entered g, Value.func.injEq]
    · obtain ⟨g, hg, hown⟩ := ht.owned v hv
      exact ⟨g, List.mem_cons_of_mem k hg, hown⟩
    · exact List.mem_cons_of_mem _ (ht.listed ((List.mem_cons.mp hj).resolve_left nofun) hlisted)
  refine ⟨hrecords, ?_, hnew, List.mem_cons_self, fun c hc => ?_, fun c hc => .inr hc,
    fun c hc hparent => absurd hparent (hnone c hc), fun c hc hmem => ?_, fun _ hc => hc,
    List.nodup_singleton entry, List.nodup_singleton entry⟩
  · refine ⟨fun _ h => List.mem_cons_of_mem k h, fun _ h => List.mem_cons_of_mem _ h, rfl,
      fun v hv => ?_, fun v hv => ?_⟩
    · rcases List.mem_cons.mp hv with rfl | hv
      · refine .inr fun w hw => ?_
        cases hw with
        | entry hb =>
          rw [Option.some.inj (hb.symm.trans hentry)]
          exact .inr (List.mem_singleton_self _)
      · exact .inl hv
    · rcases List.mem_cons.mp hv with rfl | hv
      · exact .inr (.inr fun g hg hown => hnew (Option.some.inj hown ▸ hg))
      · exact .inl hv
  · rw [List.mem_singleton.mp hc]
    exact ⟨hreach.entry hentry, hinside⟩
  · rw [List.mem_singleton.mp hc] at hmem
    exact hnone entry hmem hinside

omit hexcept hfollow in
theorem Queueing.next {rest queued : List BlockId} {u : PathState (List Value)}
    (h : Queueing p start f s ⟨b :: rest, queued⟩ t) (hlive : (p.func f).erased = false)
    (hu : Records p start u) (hblock : .block b ∈ u.extra)
    (hadds : Adds p (.block b :: (p.block b).instrs.map .instr)
      (((p.block b).instrs.flatMap fun i => (p.instr i).taken).map .block) t u) :
    Queueing p start f s (p.queueBehind ⟨rest, queued⟩ b) u := by
  have hb := h.reachable b (h.inQueue List.mem_cons_self)
  obtain ⟨hnot, hdistinct⟩ := List.nodup_cons.mp h.distinct
  have hgrows := Frontier.grows_pushAll ((p.block b).instrs.flatMap fun i => (p.instr i).taken)
    ⟨rest, queued⟩
  have hrest : rest ⊆ queued := fun c hc => h.inQueue (List.mem_cons_of_mem b hc)
  -- a block of this function that is new is the block itself
  have hone : ∀ c, .block c ∈ u.extra → (p.block c).parent = some f →
      .block c ∈ t.extra ∨ c = b := by
    intro c hc hparent
    rcases hadds.elsewhere _ hc with hc | hc | hother
    · exact .inl hc
    · rcases List.mem_cons.mp hc with hc | hc
      · cases hc
        exact .inr rfl
      · obtain ⟨j, -, heq⟩ := List.mem_map.mp hc
        cases heq
    · exact absurd hparent (hother f h.inside)
  have hqueued : ∀ c ∈ (p.queueBehind ⟨rest, queued⟩ b).queued,
      .block c ∈ u.extra ∨ c ∈ (p.queueBehind ⟨rest, queued⟩ b).queue := by
    intro c hc
    rcases hgrows.queued c hc with hc | hc
    · rcases h.queued c hc with hc | hc
      · exact .inl (hadds.old hc)
      · rcases List.mem_cons.mp hc with rfl | hc
        · exact .inl hblock
        · exact .inr (hgrows.queue hc)
    · exact .inr hc
  have hreach : ∀ c ∈ (p.queueBehind ⟨rest, queued⟩ b).queued,
      p.Reachable start (.block c) ∧ (p.block c).parent = some f := by
    intro c hc
    rcases hgrows.origin c hc with hc | hc
    · exact h.reachable c hc
    · obtain ⟨j, hj, htaken⟩ := List.mem_flatMap.mp hc
      exact ⟨(hb.1.instr hj).next htaken, hv.onward hp hlive hb.2 j hj c htaken⟩
  refine ⟨hu, ?_, h.outside, hadds.visited h.inside, hreach, hqueued, ?_, ?_, hgrows.inQueue hrest,
    hgrows.distinct hrest hdistinct, hgrows.nodup h.nodup⟩
  · have hnext : Adds p (.block b :: (p.block b).instrs.map .instr)
        ((p.queueBehind ⟨rest, queued⟩ b).queue.map .block) t u := by
      refine ⟨hadds.visited, hadds.old, hadds.doomed, fun v hv => ?_, hadds.elsewhere⟩
      refine (hadds.followed v hv).imp_right fun hnext w hw => ?_
      rcases hnext w hw with hw | hw
      · exact .inl hw
      · obtain ⟨c, hc, rfl⟩ := List.mem_map.mp hw
        exact (hqueued c (hgrows.pushed hc)).imp_right (List.mem_map_of_mem ·)
    have hstep := h.adds.trans hnext ?_
    · refine hstep.forget fun v hv g hg => ?_
      rcases List.mem_cons.mp hv with rfl | hv
      · rintro hown
        exact h.outside (Option.some.inj (hb.2.symm.trans hown) ▸ hg)
      · obtain ⟨j, hj, rfl⟩ := List.mem_map.mp hv
        rintro hown
        exact h.outside (Option.some.inj ((hp.functionOf_of_parent hb.2 hj).symm.trans hown) ▸ hg)
    · intro w hw
      obtain ⟨c, hc, rfl⟩ := List.mem_map.mp hw
      exact (hqueued c (hgrows.old (h.inQueue hc))).imp_right (List.mem_map_of_mem ·)
  · intro c hc hparent
    rcases hone c hc hparent with hc | rfl
    · exact hgrows.old (h.known c hc hparent)
    · exact hgrows.old (h.inQueue List.mem_cons_self)
  · intro c hc hmem
    have hparent := (hreach c (hgrows.inQueue hrest hc)).2
    rcases hone c hmem hparent, hgrows.fresh c hc with ⟨hold | hself, hrest | hpushed⟩
    · exact h.fresh c (List.mem_cons_of_mem b hrest) hold
    · exact hpushed (h.known c hold hparent)
    · exact hnot (hself ▸ hrest)
    · exact hpushed (hself ▸ h.inQueue List.mem_cons_self)

theorem visitBlocks_records {fuel : Nat} (h : Queueing p start f s front t)
    (hlive : (p.func f).erased = false)
    (hdepth : p.definedFunctions.length ≤ depth + t.visited.length)
    (hfuel : p.blocks.size + 1 + front.queue.length ≤ fuel + front.queued.length) :
    ComesTo (visitBlocks limits record follow f fuel front) t (fun _ => False) fun _ u =>
      Records p start u ∧ Adds p [] [] s u ∧ f ∈ u.visited := by
  induction fuel generalizing front t with
  | zero =>
    have hsub : front.queued ⊆ (List.range p.blocks.size).map BlockId.mk := by
      intro c hc
      exact List.mem_map.mpr ⟨c.index, List.mem_range.mpr (block_lt_of_live
        (hp.block_live_of_listed (hp.mem_blocks.mpr (h.reachable c hc).2))), rfl⟩
    have hlength := (h.nodup.subperm hsub).length_le
    rw [List.length_map, List.length_range] at hlength
    omega
  | succ fuel ih =>
    obtain ⟨queue, queued⟩ := front
    unfold visitBlocks
    cases queue with
    | nil => exact comesTo_of_ok rfl ⟨h.records, h.adds, h.inside⟩
    | cons b rest =>
      have hb := h.reachable b (h.inQueue List.mem_cons_self)
      refine ComesTo.bind ((visitBlock_records hp hv hexcept hfollow hlive h.inside hdepth h.records
        hb.2 hb.1 (h.fresh b List.mem_cons_self)).mono (fun _ he => he) ?_)
      rintro front' u ⟨hu, hblock, hadds, rfl⟩
      have hgrows := Frontier.grows_pushAll
        ((p.block b).instrs.flatMap fun i => (p.instr i).taken) ⟨rest, queued⟩
      refine ih (h.next hp hv hlive hu hblock hadds) (Nat.le_trans hdepth (Nat.add_le_add_left
        (h.records.books.subperm hadds.visited).length_le depth)) ?_
      have hlength : (p.queueBehind ⟨rest, queued⟩ b).queue.length + queued.length =
          rest.length + (p.queueBehind ⟨rest, queued⟩ b).queued.length := hgrows.length
      have hspent : p.blocks.size + 1 + (rest.length + 1) ≤ fuel + 1 + queued.length := hfuel
      change p.blocks.size + 1 + (p.queueBehind ⟨rest, queued⟩ b).queue.length ≤
        fuel + (p.queueBehind ⟨rest, queued⟩ b).queued.length
      omega

omit hfollow

theorem walkWithin_records (depth : Nat) : Follows p start depth (walkWithin limits record depth) := by
  induction depth with
  | zero =>
    intro k t hlive _ hdepth ht
    refine comesTo_of_ok rfl ⟨ht, .refl _ _ t, fun hdefined => ?_, .inr rfl⟩
    rw [Nat.zero_add] at hdepth
    exact ht.mem_visited hdepth (mem_definedFunctions.mpr ⟨hlive, hdefined⟩)
  | succ depth ih =>
    intro k t hlive hreach hdepth ht
    unfold ComesTo
    rw [walkWithin_apply]
    by_cases hover : passesOver t k = true
    · rw [if_pos hover]
      refine ⟨ht, .refl _ _ t, fun hdefined => ?_, .inr rfl⟩
      simpa [passesOver, ht.program, hlive, hdefined] using hover
    rw [if_neg hover]
    have hdefined : (p.func k).isDeclaration = false := by
      simp only [passesOver, ht.program, Bool.or_eq_true, not_or] at hover
      exact Bool.not_eq_true _ ▸ hover.1.2
    have hnew : k ∉ t.visited := fun hmem => hover (by simp [passesOver, hmem])
    obtain ⟨entry, hentry⟩ : ∃ entry, (p.func k).entryBlock? = some entry := by
      refine Option.isSome_iff_exists.mp ?_
      rw [Func.entryBlock?, List.isSome_head?, ← List.isEmpty_eq_false_iff]
      exact hdefined
    have hfunction : ComesTo (visitFunction limits record (walkWithin limits record depth) k)
        { t with visited := k :: t.visited, doomed := [] } (fun _ => False) fun _ u =>
          Records p start u ∧ Adds p [] [] { t with doomed := [] } u ∧ k ∈ u.visited := by
      unfold visitFunction
      refine ComesTo.after (a := t.program) rfl ?_
      have hfirst : (t.program.func k).entryBlock? = some entry := by
        rw [ht.program]
        exact hentry
      rw [hfirst]
      refine ComesTo.after (rfl : record (.func k) _ = .ok (some (.func k)) _) ?_
      refine visitBlocks_records hp hv hexcept ih ?_ hlive ?_ (by
        rw [ht.program]
        exact Nat.le_refl _)
      · exact queueing_start hp ht (mem_definedFunctions.mpr ⟨hlive, hdefined⟩) hnew (hreach hdefined)
          hentry
      · exact Nat.le_trans hdepth (by simp only [List.length_cons]; omega)
    change ComesTo (walkBody limits record depth k t.doomed)
      { t with visited := k :: t.visited, doomed := [] } _ _
    unfold walkBody
    refine ComesTo.bind (hfunction.mono (fun _ he => he) ?_)
    rintro _ u ⟨hu, hadds, hentered⟩
    -- nothing is doomed, so nothing is erased
    have hdoomed : u.doomed = [] := hadds.doomed
    refine ComesTo.after (a := u) (t := u) rfl ?_
    rw [hdoomed]
    exact comesTo_of_ok rfl ⟨⟨hu.program, hu.nodup, hu.reachable, hu.entered, hu.books, hu.defined,
      hu.owned, hu.listed⟩, ⟨hadds.visited, hadds.old, rfl, hadds.followed, hadds.elsewhere⟩,
      fun _ => hentered, .inl rfl⟩

theorem walk_records (hlive : (p.func start).erased = false)
    (hdefined : (p.func start).isDeclaration = false)
    (hdepth : p.definedFunctions.length ≤ limits.maxDepth) :
    ∃ u, walk limits record start { program := p, extra := [] } = .ok true u ∧ u.program = p ∧
      u.doomed = [] ∧ u.extra.Nodup ∧ ∀ v, v ∈ u.extra ↔ p.Reachable start v := by
  have hstart : Records p start { program := p, extra := [] } :=
    ⟨rfl, List.nodup_nil, nofun, fun _ => iff_of_false List.not_mem_nil List.not_mem_nil,
      List.nodup_nil, nofun, nofun, nofun⟩
  have hwalk := walkWithin_records hp hv hexcept limits.maxDepth start { program := p, extra := [] }
    hlive (fun _ => .refl) hdepth hstart
  unfold walk
  cases hrun : walkWithin limits record limits.maxDepth start { program := p, extra := [] } with
  | error e u => exact (hwalk.of_error hrun).elim
  | ok walked u =>
    obtain ⟨hu, hadds, hentered, hwalked⟩ := hwalk.of_ok hrun
    have hself := hentered hdefined
    rcases hwalked with rfl | rfl
    · refine ⟨u, rfl, hu.program, hadds.doomed, hu.nodup, fun v => ⟨hu.reachable v, fun hreach => ?_⟩⟩
      induction hreach with
      | refl => exact (hu.entered start).mpr hself
      | tail _ hlead ih =>
        have hnext := (hadds.followed _ ih).resolve_left List.not_mem_nil
        exact (hnext _ hlead).resolve_right List.not_mem_nil
    · cases hself

end

theorem record_mimics {τ : Type} {visit : Visitor τ} {note : τ → Value → τ} (x : τ)
    (hvisit : ∀ v t, visit v t = .ok (some v) { t with extra := note t.extra v }) (v : Value) :
    Mimics (fun vs : List Value => vs.reverse.foldl note x) (record v) (visit v) := by
  intro t
  rw [hvisit]
  unfold record PathState.map
  dsimp only
  rw [List.reverse_cons, List.foldl_append]
  rfl

/-- A walk that is deep enough visits every reachable value once, and nothing else, whatever its
    visitor notes. -/
theorem walk_visits_reachable {p : Program} (hp : p.Sound) (hverified : p.verify = .ok ())
    {limits : WalkLimits} {start : FuncId} (hlive : (p.func start).erased = false)
    (hdefined : (p.func start).isDeclaration = false)
    (hdepth : p.definedFunctions.length ≤ limits.maxDepth)
    (hexcept : limits.assumeNoExcept = true ∨
      ∀ b i, p.Reachable start (.block b) → i ∈ (p.block b).instrs → (p.instr i).isInvoke = false) :
    ∃ vs : List Value, vs.Nodup ∧ (∀ v, v ∈ vs ↔ p.Reachable start v) ∧
      ∀ {τ : Type} (visit : Visitor τ) (note : τ → Value → τ) (x : τ),
        (∀ v t, visit v t = .ok (some v) { t with extra := note t.extra v }) →
        ∃ visited, walk limits visit start { program := p, extra := x } =
          .ok true { program := p, visited := visited, extra := vs.foldl note x } := by
  have hplain : limits.assumeNoExcept = true ∨
      ∀ i, p.Reachable start (.instr i) → (p.instr i).isInvoke = false := by
    refine hexcept.imp_right fun h i hi => ?_
    cases hi with
    | tail hblock hlead =>
      cases hlead with
      | instr hlisted => exact h _ i hblock hlisted
  obtain ⟨u, hrun, hprogram, hdoomed, hnodup, hmem⟩ :=
    walk_records hp (verify_ok.mp hverified) hplain hlive hdefined hdepth
  refine ⟨u.extra.reverse, List.nodup_reverse.mpr hnodup, fun v => ?_, fun visit note x hvisit => ?_⟩
  · rw [List.mem_reverse]
    exact hmem v
  · have hmimics : Mimics (fun vs : List Value => vs.reverse.foldl note x) (walk limits record start)
        (walk limits visit start) := walk_mimics (record_mimics x hvisit) start
    specialize hmimics { program := p, extra := [] }
    rw [hrun] at hmimics
    refine ⟨u.visited, hmimics.trans ?_⟩
    unfold PathState.map
    dsimp only
    rw [hprogram, hdoomed]

/-- Two functions that call each other, the first one in a loop; its second block is left only when
    something is thrown, and the third function is never called. -/
def circling : Program where
  name := "circling"
  functions := #[
    ⟨"Main", .void, [], false, none, none, [], [⟨0⟩, ⟨1⟩, ⟨2⟩], false⟩,
    ⟨"Again", .void, [], false, none, none, [], [⟨3⟩], false⟩,
    ⟨"Never", .void, [], false, none, none, [], [⟨4⟩], false⟩]
  blocks := #[
    ⟨some "entry", some ⟨0⟩, [⟨0⟩, ⟨1⟩], false⟩,
    ⟨some "thrown", some ⟨0⟩, [⟨2⟩], false⟩,
    ⟨some "back", some ⟨0⟩, [⟨3⟩], false⟩,
    ⟨some "entry", some ⟨1⟩, [⟨4⟩, ⟨5⟩], false⟩,
    ⟨some "entry", some ⟨2⟩, [⟨6⟩], false⟩]
  instrs := #[
    ⟨.call .none, .void, [.func ⟨1⟩], none, some ⟨0⟩, false⟩,
    ⟨.invoke, .void, [.block ⟨2⟩, .block ⟨1⟩, .func ⟨1⟩], none, some ⟨0⟩, false⟩,
    ⟨.ret, .void, [], none, some ⟨1⟩, false⟩,
    ⟨.br, .void, [.block ⟨0⟩], none, some ⟨2⟩, false⟩,
    ⟨.call .none, .void, [.func ⟨0⟩], none, some ⟨3⟩, false⟩,
    ⟨.ret, .void, [], none, some ⟨3⟩, false⟩,
    ⟨.ret, .void, [], none, some ⟨4⟩, false⟩]

theorem walk_visits_reachable_circling :
    ∃ vs u, walk ⟨3, true⟩ record ⟨0⟩ { program := circling, extra := [] } = .ok true u ∧
      u.extra = vs ∧ vs = [.instr ⟨3⟩, .block ⟨2⟩, .instr ⟨1⟩, .instr ⟨5⟩, .instr ⟨4⟩, .block ⟨3⟩,
        .func ⟨1⟩, .instr ⟨0⟩, .block ⟨0⟩, .func ⟨0⟩] ∧
      ∀ v, v ∈ vs ↔ circling.Reachable ⟨0⟩ v := by
  obtain ⟨walked, u, hrun, hextra⟩ := exists_answer
    (r := walk ⟨3, true⟩ record ⟨0⟩ { program := circling, extra := [] })
    (P := fun _ u => u.extra = [.instr ⟨3⟩, .block ⟨2⟩, .instr ⟨1⟩, .instr ⟨5⟩, .instr ⟨4⟩, .block ⟨3⟩,
      .func ⟨1⟩, .instr ⟨0⟩, .block ⟨0⟩, .func ⟨0⟩]) (by decide +kernel)
  obtain ⟨vs, -, hmem, hwalk⟩ := @walk_visits_reachable circling (by decide +kernel) (by rfl)
    ⟨3, true⟩ ⟨0⟩ rfl rfl (by decide +kernel) (.inl rfl)
  obtain ⟨visited, hsame⟩ := hwalk record (flip List.cons) [] fun _ _ => rfl
  rw [hrun, List.foldl_cons_nil] at hsame
  obtain ⟨rfl, rfl⟩ := EStateM.Result.ok.inj hsame
  refine ⟨vs.reverse, _, hrun, rfl, hextra, fun v => ?_⟩
  rw [List.mem_reverse]
  exact hmem v

end Walk

end QirProfile
