import Mathlib.Data.List.Nodup
import Mathlib.Data.List.Perm.Subperm
import QirProfile.Proofs.ExecutionPath
import QirProfile.Proofs.Program.Arena
import QirProfile.Proofs.Program.Uses
import QirProfile.Proofs.Verify
import QirProfile.Transform.ActiveCode

/-!
# Active code is found exactly

`Active` is the active code as it is meant: the least set with the entry points and the functions
that globals refer to, closed under what active blocks refer to, entry blocks and successors. The
search for it walks from roots, at most so many calls deep, and looks for further roots until there
are none.
-/

namespace QirProfile

namespace Program

/-! ## 1. Active code -/

/-- The active functions and blocks of a program with entry points marked by `attr`. -/
inductive Active (p : Program) (attr : String) : Value → Prop where
  | entryPoint {f : FuncId} (hf : (p.func f).erased = false)
      (h : (p.func f).hasAttribute attr = true) : Active p attr (.func f)
  | global {f : FuncId} {g : GlobalId} (hf : (p.func f).erased = false)
      (h : (p.global g).uses (.func f) = true) : Active p attr (.func f)
  | referenced {b : BlockId} {i : InstrId} {f : FuncId} (hb : Active p attr (.block b))
      (hi : i ∈ (p.block b).instrs) (hf : (p.func f).erased = false)
      (h : (p.instr i).uses (.func f) = true) : Active p attr (.func f)
  | entry {f : FuncId} {b : BlockId} (hf : Active p attr (.func f))
      (h : (p.func f).entryBlock? = some b) : Active p attr (.block b)
  | next {b c : BlockId} {last : InstrId} (hb : Active p attr (.block b))
      (hlast : (p.block b).terminator? = some last) (h : c ∈ (p.instr last).successors) :
      Active p attr (.block c)

/-- Where control goes from the instructions of a block. -/
def successorsOf (p : Program) (b : BlockId) : List BlockId :=
  (p.block b).instrs.flatMap fun i => (p.instr i).successors

/-- An active block has an invoke. -/
def Invokes (p : Program) (attr : String) : Prop :=
  ∃ b i, p.Active attr (.block b) ∧ i ∈ (p.block b).instrs ∧ (p.instr i).kind = .invoke

variable {p : Program} {attr : String}

theorem Active.live {f : FuncId} (h : p.Active attr (.func f)) : (p.func f).erased = false := by
  cases h <;> assumption

section

variable (hp : p.Sound) (hv : p.Verified)

include hp hv

theorem Active.listed {b : BlockId} (h : p.Active attr (.block b)) :
    ∃ f, p.Active attr (.func f) ∧ b ∈ (p.func f).blocks := by
  generalize hx : Value.block b = v at h
  induction h generalizing b with
  | entryPoint _ _ => cases hx
  | global _ _ => cases hx
  | referenced _ _ _ _ => cases hx
  | entry hf h =>
    cases hx
    exact ⟨_, hf, List.mem_of_head? h⟩
  | next hb hlast h ih =>
    cases hx
    obtain ⟨f, hf, hlisted⟩ := ih rfl
    -- the target is an operand, so the function of the block is its parent, too
    have hmem := List.mem_of_getLast? hlast
    have hoperand := ((hv f hf.live _ hlisted).instrs _ hmem).operands _
      (Instr.mem_of_successors h)
    exact ⟨f, hf, hp.mem_blocks.mpr (operandProblem?_block hoperand)⟩

theorem Active.block_live {b : BlockId} (h : p.Active attr (.block b)) :
    (p.block b).erased = false := by
  obtain ⟨f, -, hlisted⟩ := h.listed hp hv
  exact hp.block_live_of_listed hlisted

theorem Active.successor {b c : BlockId} (h : p.Active attr (.block b))
    (hc : c ∈ p.successorsOf b) : p.Active attr (.block c) := by
  obtain ⟨i, hi, hc⟩ := List.mem_flatMap.mp hc
  obtain ⟨f, hf, hlisted⟩ := h.listed hp hv
  have hlast := ((hv f hf.live b hlisted).instrs i hi).last (Instr.isTerminator_of_successors hc)
  exact .next h hlast hc

theorem Active.called {b : BlockId} {i : InstrId} {g : FuncId} (h : p.Active attr (.block b))
    (hi : i ∈ (p.block b).instrs) (hg : (p.instr i).calledFunction? = some g) :
    p.Active attr (.func g) := by
  obtain ⟨f, hf, hlisted⟩ := h.listed hp hv
  have hmem := Instr.mem_of_calledFunction? hg
  have hoperand := ((hv f hf.live b hlisted).instrs i hi).operands _ hmem
  refine .referenced h hi ?_ (Instr.uses_of_mem hmem)
  unfold operandProblem? at hoperand
  by_contra herased
  simp [herased] at hoperand

end

end Program

/-! ## 2. The queue of blocks -/

namespace Frontier

/-- How a frontier grows when blocks are queued. -/
structure Grows (cs : List BlockId) (front front' : Frontier) : Prop where
  queue : front.queue ⊆ front'.queue
  pushed : cs ⊆ front'.queued
  old : front.queued ⊆ front'.queued
  queued : ∀ c ∈ front'.queued, c ∈ front.queued ∨ c ∈ front'.queue
  origin : ∀ c ∈ front'.queued, c ∈ front.queued ∨ c ∈ cs
  inQueue : front.queue ⊆ front.queued → front'.queue ⊆ front'.queued
  nodup : front.queued.Nodup → front'.queued.Nodup
  distinct : front.queue ⊆ front.queued → front.queue.Nodup → front'.queue.Nodup
  fresh : ∀ c ∈ front'.queue, c ∈ front.queue ∨ c ∉ front.queued
  length : front'.queue.length + front.queued.length = front.queue.length + front'.queued.length

theorem grows_push (front : Frontier) (c : BlockId) : Grows [c] front (front.push c) := by
  unfold push
  split
  · rename_i h
    have hmem : c ∈ front.queued := by simpa using h
    exact ⟨fun _ h => h, fun x hx => List.mem_singleton.mp hx ▸ hmem, fun _ h => h,
      fun _ h => .inl h, fun _ h => .inl h, id, id, fun _ => id, fun _ h => .inl h, rfl⟩
  · rename_i h
    have hmem : c ∉ front.queued := by simpa using h
    refine ⟨fun _ h => List.mem_append_left _ h, ?_, fun _ h => List.mem_cons_of_mem _ h, ?_, ?_,
      fun h => ?_, fun h => List.nodup_cons.mpr ⟨hmem, h⟩, fun h hnodup => ?_, fun x hx => ?_, ?_⟩
    · exact fun x hx => List.mem_singleton.mp hx ▸ List.mem_cons_self
    · intro x hx
      rcases List.mem_cons.mp hx with rfl | hx
      · exact .inr (List.mem_append_right _ (List.mem_singleton_self x))
      · exact .inl hx
    · intro x hx
      rcases List.mem_cons.mp hx with rfl | hx
      · exact .inr (List.mem_singleton_self x)
      · exact .inl hx
    · intro x hx
      rcases List.mem_append.mp hx with hx | hx
      · exact List.mem_cons_of_mem c (h hx)
      · rw [List.mem_singleton.mp hx]
        exact List.mem_cons_self
    · rw [← List.concat_eq_append]
      exact hnodup.concat fun hc => hmem (h hc)
    · refine (List.mem_append.mp hx).imp_right fun hx => ?_
      rwa [List.mem_singleton.mp hx]
    · simp only [List.length_append, List.length_cons, List.length_nil]
      omega

theorem grows_pushAll (cs : List BlockId) (front : Frontier) :
    Grows cs front (cs.foldl push front) := by
  induction cs generalizing front with
  | nil =>
    exact ⟨fun _ h => h, List.nil_subset _, fun _ h => h, fun _ h => .inl h, fun _ h => .inl h, id,
      id, fun _ => id, fun _ h => .inl h, rfl⟩
  | cons c cs ih =>
    have hone := grows_push front c
    have hrest := ih (front.push c)
    refine ⟨List.Subset.trans hone.queue hrest.queue, ?_, List.Subset.trans hone.old hrest.old, ?_, ?_,
      fun h => hrest.inQueue (hone.inQueue h), fun h => hrest.nodup (hone.nodup h),
      fun h hnodup => hrest.distinct (hone.inQueue h) (hone.distinct h hnodup), ?_, ?_⟩
    · intro x hx
      rcases List.mem_cons.mp hx with rfl | hx
      · exact hrest.old (hone.pushed List.mem_cons_self)
      · exact hrest.pushed hx
    · intro x hx
      rcases hrest.queued x hx with hx | hx
      · exact (hone.queued x hx).imp_right fun h => hrest.queue h
      · exact .inr hx
    · intro x hx
      rcases hrest.origin x hx with hx | hx
      · refine (hone.origin x hx).imp_right fun h => ?_
        rw [List.mem_singleton.mp h]
        exact List.mem_cons_self
      · exact .inr (List.mem_cons_of_mem c hx)
    · intro x hx
      rcases hrest.fresh x hx with hx | hx
      · exact hone.fresh x hx
      · exact .inr fun hmem => hx (hone.old hmem)
    · have h₁ := hone.length
      have h₂ := hrest.length
      simp only [List.foldl_cons] at h₂ ⊢
      omega

end Frontier

/-! ## 3. What a walk marks -/

namespace ActiveCode

@[simp] theorem mem_functions_record {a : ActiveCode} {f g : FuncId} :
    g ∈ (a.record (.func f)).functions ↔ g = f ∨ g ∈ a.functions := by
  unfold record
  by_cases h : f ∈ a.functions
  · simp only [List.contains_eq_mem, h, decide_true, if_true]
    exact ⟨.inr, fun hg => hg.elim (fun e => e ▸ h) id⟩
  · simp [h]

@[simp] theorem mem_blocks_record {a : ActiveCode} {b c : BlockId} :
    c ∈ (a.record (.block b)).blocks ↔ c = b ∨ c ∈ a.blocks := by
  unfold record
  by_cases h : b ∈ a.blocks
  · simp only [List.contains_eq_mem, h, decide_true, if_true]
    exact ⟨.inr, fun hc => hc.elim (fun e => e ▸ h) id⟩
  · simp [h]

@[simp] theorem blocks_record_func (a : ActiveCode) (f : FuncId) :
    (a.record (.func f)).blocks = a.blocks := rfl

@[simp] theorem functions_record_block (a : ActiveCode) (b : BlockId) :
    (a.record (.block b)).functions = a.functions := rfl

@[simp] theorem record_instr (a : ActiveCode) (i : InstrId) : a.record (.instr i) = a := rfl

end ActiveCode

namespace Transform

/-- Nothing but active code is marked, and the program is as it was. -/
structure Marked (p : Program) (attr : String) (t : PathState ActiveCode) : Prop where
  program : t.program = p
  functions : ∀ f ∈ t.extra.functions, p.Active attr (.func f)
  blocks : ∀ b ∈ t.extra.blocks, p.Active attr (.block b)

/-- From `s` to `t`, marks are only added. A block that was marked has no invoke, and where control
    goes from it is marked or pending; a function that was visited is marked, and so is its entry,
    unless it is pending. -/
structure Covers (p : Program) (pending : List BlockId) (s t : PathState ActiveCode) : Prop where
  functions : s.extra.functions ⊆ t.extra.functions
  blocks : s.extra.blocks ⊆ t.extra.blocks
  visited : s.visited ⊆ t.visited
  doomed : t.doomed = s.doomed
  next : ∀ b ∈ t.extra.blocks, b ∈ s.extra.blocks ∨
    (∀ i ∈ (p.block b).instrs, (p.instr i).kind ≠ .invoke) ∧
      ∀ c ∈ p.successorsOf b, c ∈ t.extra.blocks ∨ c ∈ pending
  entry : ∀ f ∈ t.visited, f ∈ s.visited ∨ f ∈ t.extra.functions ∧
    ∀ b, (p.func f).entryBlock? = some b → b ∈ t.extra.blocks ∨ b ∈ pending

section

variable {p : Program} {attr : String} {pending : List BlockId}

theorem Covers.refl (pending : List BlockId) (s : PathState ActiveCode) : Covers p pending s s :=
  ⟨fun _ h => h, fun _ h => h, fun _ h => h, rfl, fun _ h => .inl h, fun _ h => .inl h⟩

theorem Covers.trans {before : List BlockId} {s t u : PathState ActiveCode}
    (h₁ : Covers p before s t) (h₂ : Covers p pending t u)
    (hbefore : ∀ c ∈ before, c ∈ u.extra.blocks ∨ c ∈ pending) : Covers p pending s u where
  functions := List.Subset.trans h₁.functions h₂.functions
  blocks := List.Subset.trans h₁.blocks h₂.blocks
  visited := List.Subset.trans h₁.visited h₂.visited
  doomed := h₂.doomed.trans h₁.doomed
  next b hb := by
    rcases h₂.next b hb with hb | hb
    · refine (h₁.next b hb).imp_right fun ⟨hplain, hnext⟩ => ⟨hplain, fun c hc => ?_⟩
      exact (hnext c hc).elim (fun h => .inl (h₂.blocks h)) (hbefore c)
    · exact .inr hb
  entry f hf := by
    rcases h₂.entry f hf with hf | hf
    · refine (h₁.entry f hf).imp_right fun ⟨hmarked, hentry⟩ =>
        ⟨h₂.functions hmarked, fun b hb => ?_⟩
      exact (hentry b hb).elim (fun h => .inl (h₂.blocks h)) (hbefore b)
    · exact .inr hf

theorem covers_record_func (t : PathState ActiveCode) (f : FuncId) :
    Covers p [] t { t with extra := t.extra.record (.func f) } where
  functions _ h := ActiveCode.mem_functions_record.mpr (.inr h)
  blocks _ h := h
  visited _ h := h
  doomed := rfl
  next _ h := .inl h
  entry _ h := .inl h

theorem Marked.reads {t : PathState ActiveCode} (h : Marked p attr t) :
    (Walk.program : Walk ActiveCode Program) t = .ok p t := by
  rw [← h.program]
  rfl

theorem Marked.record_func {t : PathState ActiveCode} (h : Marked p attr t) {f : FuncId}
    (hf : p.Active attr (.func f)) :
    Marked p attr { t with extra := t.extra.record (.func f) } where
  program := h.program
  functions g hg := by
    rcases ActiveCode.mem_functions_record.mp hg with rfl | hg
    · exact hf
    · exact h.functions g hg
  blocks := h.blocks

theorem Marked.record_block {t : PathState ActiveCode} (h : Marked p attr t) {b : BlockId}
    (hb : p.Active attr (.block b)) :
    Marked p attr { t with extra := t.extra.record (.block b) } where
  program := h.program
  functions := h.functions
  blocks c hc := by
    rcases ActiveCode.mem_blocks_record.mp hc with rfl | hc
    · exact hb
    · exact h.blocks c hc

theorem targets_eq {limits : WalkLimits} (h : limits.assumeNoExcept = false) (name : String)
    (i : Instr) : (i.kind = .invoke ∧ ∃ e, Walk.targets limits name i = .error e) ∨
      i.kind ≠ .invoke ∧ Walk.targets limits name i = .ok i.successors := by
  unfold Walk.targets Instr.successors
  cases hkind : i.kind <;> simp [h]

end

/-! ## 4. Walking a function -/

section

variable {p : Program} {attr : String} {limits : WalkLimits}
  {follow : FuncId → Walk ActiveCode Bool}

/-- What is asked of a walk of a called function. -/
def Follows (p : Program) (attr : String) (follow : FuncId → Walk ActiveCode Bool) : Prop :=
  ∀ g t, p.Active attr (.func g) → Marked p attr t →
    Ends (follow g) t (p.Invokes attr) fun _ u => Marked p attr u ∧ Covers p [] t u

variable (hp : p.Sound) (hv : p.Verified) (hlimits : limits.assumeNoExcept = false)
  (hfollow : Follows p attr follow)

include hp hv hlimits hfollow

theorem ends_visitInstr {b : BlockId} {i : InstrId} {t : PathState ActiveCode}
    (hb : p.Active attr (.block b)) (hi : i ∈ (p.block b).instrs) (ht : Marked p attr t) (f : FuncId)
    (front : Frontier) :
    Ends (Walk.visitInstr limits mark follow f front i) t (p.Invokes attr) fun front' u =>
      Marked p attr u ∧ Covers p [] t u ∧ (p.instr i).kind ≠ .invoke ∧
        front' = (p.instr i).successors.foldl Frontier.push front := by
  have htargets : ∀ u, Marked p attr u → Covers p [] t u →
      Ends (Walk.goOn limits f front i) u (p.Invokes attr) fun front' u =>
        Marked p attr u ∧ Covers p [] t u ∧ (p.instr i).kind ≠ .invoke ∧
          front' = (p.instr i).successors.foldl Frontier.push front := by
    intro u hu hcovers
    refine Ends.after hu.reads ?_
    rcases targets_eq hlimits (p.func f).name (p.instr i) with ⟨hinvoke, e, he⟩ | ⟨hplain, he⟩
    · rw [he]
      exact ⟨b, i, hb, hi, hinvoke⟩
    · rw [he]
      exact ⟨hu, hcovers, hplain, rfl⟩
  unfold Walk.visitInstr
  refine Ends.after ht.reads ?_
  rw [if_neg (by simp [hp.instr_live hi])]
  refine Ends.after (rfl : mark (.instr i) t = .ok (some (.instr i)) t) ?_
  refine Ends.after ht.reads ?_
  dsimp only [Value.toInstr?, Option.bind_some]
  cases hcall : (p.instr i).calledFunction? with
  | none => exact htargets t ht (.refl _ t)
  | some g =>
    refine Ends.bind (Ends.bind ?_)
    refine (hfollow g t (hb.called hp hv hi hcall) ht).mono fun _ u hu => ?_
    exact htargets u hu.1 hu.2

theorem ends_visitBlock {b : BlockId} {t : PathState ActiveCode} (hb : p.Active attr (.block b))
    (ht : Marked p attr t) (f : FuncId) (front : Frontier) :
    Ends (Walk.visitBlock limits mark follow f front b) t (p.Invokes attr) fun front' u =>
      Marked p attr u ∧ Covers p [] { t with extra := t.extra.record (.block b) } u ∧
        (∀ i ∈ (p.block b).instrs, (p.instr i).kind ≠ .invoke) ∧
        front' = (p.successorsOf b).foldl Frontier.push front := by
  unfold Walk.visitBlock
  refine Ends.after ht.reads ?_
  rw [if_neg (by simp [hb.block_live hp hv])]
  refine Ends.after (rfl : mark (.block b) t =
    .ok (some (.block b)) { t with extra := t.extra.record (.block b) }) ?_
  have hmarked := ht.record_block hb
  refine Ends.after hmarked.reads ?_
  -- what is left of the block, and what has been queued for the part before
  refine (ends_foldlM (fun ids front' u => ∃ done, (p.block b).instrs = done ++ ids ∧
    Marked p attr u ∧ Covers p [] { t with extra := t.extra.record (.block b) } u ∧
    (∀ i ∈ done, (p.instr i).kind ≠ .invoke) ∧
    front' = (done.flatMap fun i => (p.instr i).successors).foldl Frontier.push front)
    ⟨[], rfl, hmarked, .refl _ _, nofun, rfl⟩ ?_).mono ?_
  · rintro i ids front' u ⟨done, hsplit, hu, hcovers, hplain, rfl⟩
    have hi : i ∈ (p.block b).instrs := by
      rw [hsplit]
      exact List.mem_append_right done List.mem_cons_self
    refine (ends_visitInstr hp hv hlimits hfollow hb hi hu f _).mono ?_
    rintro front'' w ⟨hw, hstep, hkind, rfl⟩
    refine ⟨done ++ [i], by rw [hsplit, List.append_assoc]; rfl, hw,
      hcovers.trans hstep nofun, ?_, ?_⟩
    · intro j hj
      rcases List.mem_append.mp hj with hj | hj
      · exact hplain j hj
      · rw [List.mem_singleton.mp hj]
        exact hkind
    · simp
  · rintro front' u ⟨done, hsplit, hu, hcovers, hplain, rfl⟩
    rw [List.append_nil] at hsplit
    refine ⟨hu, hcovers, by rwa [hsplit], ?_⟩
    rw [Program.successorsOf, hsplit]

/-- What holds while the blocks of a function are visited, from the state `s` on. -/
structure Visiting (p : Program) (attr : String) (s : PathState ActiveCode) (front : Frontier)
    (t : PathState ActiveCode) : Prop where
  marked : Marked p attr t
  covers : Covers p front.queue s t
  queued : ∀ c ∈ front.queued, c ∈ t.extra.blocks ∨ c ∈ front.queue
  active : ∀ c ∈ front.queued, p.Active attr (.block c)
  inQueue : front.queue ⊆ front.queued
  nodup : front.queued.Nodup

theorem ends_visitNext {s t : PathState ActiveCode} {b : BlockId} {rest queued : List BlockId}
    (h : Visiting p attr s ⟨b :: rest, queued⟩ t) (f : FuncId) :
    Ends (Walk.visitBlock limits mark follow f ⟨rest, queued⟩ b) t (p.Invokes attr)
      fun front' u => Visiting p attr s front' u ∧ queued ⊆ front'.queued ∧
        front'.queue.length + queued.length = rest.length + front'.queued.length := by
  have hb := h.active b (h.inQueue List.mem_cons_self)
  refine (ends_visitBlock hp hv hlimits hfollow hb h.marked f ⟨rest, queued⟩).mono ?_
  rintro front' u ⟨hu, hcovers, hplain, rfl⟩
  have hgrows := Frontier.grows_pushAll (p.successorsOf b) ⟨rest, queued⟩
  generalize (p.successorsOf b).foldl Frontier.push ⟨rest, queued⟩ = front' at hgrows ⊢
  have hbu : b ∈ u.extra.blocks :=
    hcovers.blocks (ActiveCode.mem_blocks_record.mpr (.inl rfl))
  have hblocks : t.extra.blocks ⊆ u.extra.blocks := fun c hc =>
    hcovers.blocks (ActiveCode.mem_blocks_record.mpr (.inr hc))
  have hqueued : ∀ c ∈ front'.queued, c ∈ u.extra.blocks ∨ c ∈ front'.queue := by
    intro c hc
    rcases hgrows.queued c hc with hc | hc
    · rcases h.queued c hc with hc | hc
      · exact .inl (hblocks hc)
      · rcases List.mem_cons.mp hc with rfl | hc
        · exact .inl hbu
        · exact .inr (hgrows.queue hc)
    · exact .inr hc
  refine ⟨⟨hu, ?_, hqueued, ?_, ?_, hgrows.nodup h.nodup⟩, hgrows.old, hgrows.length⟩
  · -- the block itself, then what its calls have marked
    have hself : Covers p front'.queue t u := by
      refine ⟨hcovers.functions, hblocks, hcovers.visited, hcovers.doomed, ?_, ?_⟩
      · intro c hc
        rcases hcovers.next c hc with hc | ⟨hc, hnext⟩
        · rcases ActiveCode.mem_blocks_record.mp hc with rfl | hc
          · exact .inr ⟨hplain, fun d hd => hqueued d (hgrows.pushed hd)⟩
          · exact .inl hc
        · exact .inr ⟨hc, fun d hd => .inl ((hnext d hd).resolve_right (List.not_mem_nil))⟩
      · intro g hg
        refine (hcovers.entry g hg).imp_right fun ⟨hfunc, hentry⟩ => ⟨hfunc, fun d hd => .inl ?_⟩
        exact (hentry d hd).resolve_right List.not_mem_nil
    refine h.covers.trans hself fun c hc => ?_
    rcases List.mem_cons.mp hc with rfl | hc
    · exact .inl hbu
    · exact .inr (hgrows.queue hc)
  · intro c hc
    rcases hgrows.origin c hc with hc | hc
    · exact h.active c hc
    · exact hb.successor hp hv hc
  · exact hgrows.inQueue fun c hc => h.inQueue (List.mem_cons_of_mem b hc)

theorem ends_visitBlocks {s t : PathState ActiveCode} {front : Frontier} {fuel : Nat}
    (h : Visiting p attr s front t)
    (hfuel : p.blocks.size + 1 + front.queue.length ≤ fuel + front.queued.length) (f : FuncId) :
    Ends (Walk.visitBlocks limits mark follow f fuel front) t (p.Invokes attr)
      fun _ u => Marked p attr u ∧ Covers p [] s u ∧ front.queued ⊆ u.extra.blocks := by
  induction fuel generalizing front t with
  | zero =>
    have hsub : front.queued ⊆ (List.range p.blocks.size).map BlockId.mk := by
      intro c hc
      exact List.mem_map.mpr ⟨c.index, List.mem_range.mpr
        (Program.block_lt_of_live ((h.active c hc).block_live hp hv)), rfl⟩
    have hlength := (h.nodup.subperm hsub).length_le
    rw [List.length_map, List.length_range] at hlength
    omega
  | succ fuel ih =>
    obtain ⟨queue, queued⟩ := front
    unfold Walk.visitBlocks
    cases queue with
    | nil =>
      exact ⟨h.marked, h.covers, fun c hc => (h.queued c hc).resolve_right List.not_mem_nil⟩
    | cons b rest =>
      refine Ends.bind ?_
      refine (ends_visitNext hp hv hlimits hfollow h f).mono ?_
      rintro front' u ⟨hvisiting, hold, hlength⟩
      have hfuel' : p.blocks.size + 1 + front'.queue.length ≤ fuel + front'.queued.length := by
        simp only [List.length_cons] at hfuel
        omega
      refine (ih hvisiting hfuel').mono fun _ w hw => ?_
      exact ⟨hw.1, hw.2.1, List.Subset.trans hold hw.2.2⟩

theorem ends_visitFunction {f : FuncId} {t : PathState ActiveCode} (hf : p.Active attr (.func f))
    (ht : Marked p attr t) :
    Ends (Walk.visitFunction limits mark follow f) t (p.Invokes attr) fun _ u =>
      Marked p attr u ∧ Covers p [] t u ∧ ((p.func f).isDeclaration = false →
        f ∈ u.extra.functions ∧ ∀ b, (p.func f).entryBlock? = some b → b ∈ u.extra.blocks) := by
  unfold Walk.visitFunction
  refine Ends.after ht.reads ?_
  cases hentry : (p.func f).entryBlock? with
  | none =>
    refine ⟨ht, .refl _ t, fun hdefined => ?_⟩
    have hnone : (p.func f).blocks = [] := List.head?_eq_none_iff.mp hentry
    simp [Func.isDeclaration, hnone] at hdefined
  | some entry =>
    refine Ends.after (rfl : mark (.func f) t =
      .ok (some (.func f)) { t with extra := t.extra.record (.func f) }) ?_
    have hmarked := ht.record_func hf
    have hvisiting : Visiting p attr { t with extra := t.extra.record (.func f) }
        (.start entry) { t with extra := t.extra.record (.func f) } := by
      refine ⟨hmarked, .refl _ _, fun c hc => .inr hc, ?_, fun _ h => h, List.nodup_singleton entry⟩
      intro c hc
      rw [List.mem_singleton.mp hc]
      exact .entry hf hentry
    refine (ends_visitBlocks hp hv hlimits hfollow hvisiting (Nat.le_refl _) f).mono ?_
    rintro _ u ⟨hu, hcovers, hqueued⟩
    refine ⟨hu, (covers_record_func t f).trans hcovers nofun, fun _ => ⟨?_, ?_⟩⟩
    · exact hcovers.functions (ActiveCode.mem_functions_record.mpr (.inl rfl))
    · intro b hb
      cases hb
      exact hqueued (List.mem_singleton_self entry)

omit hfollow

theorem follows_walkWithin (depth : Nat) (f : FuncId) (t : PathState ActiveCode)
    (hf : p.Active attr (.func f)) (ht : Marked p attr t) :
    Ends (Walk.walkWithin limits mark depth f) t (p.Invokes attr) fun _ u =>
      Marked p attr u ∧ Covers p [] t u ∧
        (0 < depth → f ∈ u.visited ∨ (p.func f).isDeclaration = true) := by
  induction depth generalizing f t with
  | zero => exact ⟨ht, .refl _ t, fun h => absurd h (Nat.lt_irrefl 0)⟩
  | succ depth ih =>
    have hfollows : Follows p attr (Walk.walkWithin limits mark depth) := fun g u hg hu =>
      (ih g u hg hu).mono fun _ w hw => ⟨hw.1, hw.2.1⟩
    unfold Ends ComesTo
    rw [Walk.walkWithin_apply]
    by_cases hover : Walk.passesOver t f = true
    · rw [if_pos hover]
      refine ⟨ht, .refl _ t, fun _ => ?_⟩
      simp only [Walk.passesOver, ht.program, hf.live, Bool.false_or, Bool.or_eq_true,
        List.contains_eq_mem, decide_eq_true_eq] at hover
      exact hover.symm
    rw [if_neg hover]
    have hdefined : (p.func f).isDeclaration = false := by
      simp only [Walk.passesOver, ht.program, Bool.or_eq_true, not_or] at hover
      exact Bool.not_eq_true _ ▸ hover.1.2
    change Ends (Walk.walkBody limits mark depth f t.doomed)
      { t with visited := f :: t.visited, doomed := [] } _ _
    have hstart : Marked p attr { t with visited := f :: t.visited, doomed := [] } :=
      ⟨ht.program, ht.functions, ht.blocks⟩
    refine Ends.bind ?_
    refine (ends_visitFunction hp hv hlimits hfollows hf hstart).mono ?_
    rintro _ u ⟨hu, hcovers, hentered⟩
    -- nothing is doomed, so nothing is erased
    have hdoomed : u.doomed = [] := hcovers.doomed
    refine Ends.after (rfl : (get : Walk ActiveCode _) u = .ok u u) ?_
    rw [hdoomed]
    refine ⟨⟨hu.program, hu.functions, hu.blocks⟩, ?_, fun _ => .inl ?_⟩
    · refine ⟨hcovers.functions, hcovers.blocks, ?_, rfl, hcovers.next, ?_⟩
      · exact fun g hg => hcovers.visited (List.mem_cons_of_mem f hg)
      · intro g hg
        rcases hcovers.entry g hg with hg | hg
        · rcases List.mem_cons.mp hg with rfl | hg
          · exact .inr ⟨(hentered hdefined).1, fun b hb => .inl ((hentered hdefined).2 b hb)⟩
          · exact .inl hg
        · exact .inr hg
    · exact hcovers.visited List.mem_cons_self

end

/-! ## 5. Roots -/

theorem isRoot_iff {p : Program} (hp : p.Sound) {s : TransformSettings} {a : ActiveCode}
    {f : FuncId} : isRoot s p a f = true ↔ (p.func f).hasAttribute s.entryPointAttr = true ∨
      (∃ g, (p.global g).uses (.func f) = true) ∨
      ∃ b ∈ a.blocks, ∃ i ∈ (p.block b).instrs, (p.instr i).uses (.func f) = true := by
  unfold isRoot
  rw [Bool.or_eq_true, List.any_eq_true]
  refine or_congr Iff.rfl ⟨?_, ?_⟩
  · rintro ⟨user, huser, h⟩
    cases user with
    | global g => exact .inl ⟨g, Program.mem_usersOf_global.mp huser⟩
    | instr i =>
      obtain ⟨-, -, huses⟩ := Program.mem_usersOf_instr.mp huser
      dsimp only at h
      cases hparent : (p.instr i).parent with
      | none =>
        rw [hparent] at h
        cases h
      | some b =>
        rw [hparent] at h
        exact .inr ⟨b, by simpa using h, i, hp.mem_instrs.mpr hparent, huses⟩
  · rintro (⟨g, hg⟩ | ⟨b, hb, i, hi, huses⟩)
    · exact ⟨.global g, Program.mem_usersOf_global.mpr hg, rfl⟩
    · have hparent := hp.mem_instrs.mp hi
      refine ⟨.instr i, Program.mem_usersOf_instr.mpr ⟨hp.instr_live hi, ?_, huses⟩, ?_⟩
      · rw [hparent]
        rfl
      · simp [hparent, hb]

section

variable {p : Program} {s : TransformSettings} (hp : p.Sound) (hv : p.Verified)

include hp

theorem active_of_isRoot {t : PathState ActiveCode} (ht : Marked p s.entryPointAttr t) {f : FuncId}
    (hf : (p.func f).erased = false) (h : isRoot s p t.extra f = true) :
    p.Active s.entryPointAttr (.func f) := by
  rcases (isRoot_iff hp).mp h with h | ⟨g, h⟩ | ⟨b, hb, i, hi, h⟩
  · exact .entryPoint hf h
  · exact .global hf h
  · exact .referenced (ht.blocks b hb) hi hf h

include hv

variable (hexcept : s.assumeNoExcept = false)

include hexcept

theorem ends_markRoots (hdepth : 0 < s.maxRecursion) (roots : List FuncId)
    (t : PathState ActiveCode) (hroots : ∀ f ∈ roots, p.Active s.entryPointAttr (.func f))
    (ht : Marked p s.entryPointAttr t) :
    Ends (markRoots s roots) t (p.Invokes s.entryPointAttr) fun _ u =>
      Marked p s.entryPointAttr u ∧ Covers p [] t u ∧
        ∀ f ∈ roots, f ∈ u.extra.functions ∧
          (f ∈ u.visited ∨ (p.func f).isDeclaration = true) := by
  induction roots generalizing t with
  | nil => exact ⟨ht, .refl _ t, nofun⟩
  | cons root rest ih =>
    have hroot := hroots root List.mem_cons_self
    unfold markRoots
    refine Ends.after (rfl : (modify fun t => { t with extra := t.extra.record (.func root) } :
      Walk ActiveCode PUnit) t = .ok _ _) ?_
    refine Ends.bind ?_
    refine (follows_walkWithin hp hv hexcept s.maxRecursion root _ hroot
      (ht.record_func hroot)).mono ?_
    rintro _ u ⟨hu, hcovers, hvisited⟩
    refine (ih u (fun f hf => hroots f (List.mem_cons_of_mem root hf)) hu).mono ?_
    rintro _ w ⟨hw, hrest, hall⟩
    refine ⟨hw, ((covers_record_func t root).trans hcovers nofun).trans hrest nofun, ?_⟩
    intro f hf
    rcases List.mem_cons.mp hf with rfl | hf
    · refine ⟨hrest.functions (hcovers.functions (ActiveCode.mem_functions_record.mpr (.inl rfl))),
        ?_⟩
      exact (hvisited hdepth).imp_left fun h => hrest.visited h
    · exact hall f hf

/-- What the search has found when it ends: no live function is a root that was not followed. -/
structure Found (p : Program) (s : TransformSettings) (t : PathState ActiveCode) : Prop where
  marked : Marked p s.entryPointAttr t
  covers : Covers p [] { program := p, extra := {} } t
  roots : ∀ f, (p.func f).erased = false → isRoot s p t.extra f = true →
    f ∈ t.extra.functions ∧ (f ∈ t.visited ∨ (p.func f).isDeclaration = true)

theorem ends_markRounds (hdepth : 0 < s.maxRecursion) (fuel : Nat) (considered : List FuncId)
    (t : PathState ActiveCode) (ht : Marked p s.entryPointAttr t)
    (hcovers : Covers p [] { program := p, extra := {} } t)
    (hconsidered : ∀ f ∈ considered, (p.func f).erased = false ∧ f ∈ t.extra.functions ∧
      (f ∈ t.visited ∨ (p.func f).isDeclaration = true))
    (hnodup : considered.Nodup) (hfuel : p.functions.size + 1 ≤ fuel + considered.length) :
    Ends (markRounds s fuel considered) t (p.Invokes s.entryPointAttr) fun _ u => Found p s u := by
  induction fuel generalizing considered t with
  | zero =>
    have hsub : considered ⊆ (List.range p.functions.size).map FuncId.mk := by
      intro f hf
      exact List.mem_map.mpr ⟨f.index, List.mem_range.mpr
        (Program.func_lt_of_live (hconsidered f hf).1), rfl⟩
    have hlength := (hnodup.subperm hsub).length_le
    rw [List.length_map, List.length_range] at hlength
    omega
  | succ fuel ih =>
    unfold markRounds
    refine Ends.after (rfl : (get : Walk ActiveCode _) t = .ok t t) ?_
    rw [ht.program]
    generalize hroots : (p.liveFunctions.filter fun f =>
      !considered.contains f && !t.visited.contains f && isRoot s p t.extra f) = roots
    have hmem : ∀ f, f ∈ roots ↔ (p.func f).erased = false ∧ f ∉ considered ∧ f ∉ t.visited ∧
        isRoot s p t.extra f = true := by
      intro f
      rw [← hroots, List.mem_filter, Program.mem_liveFunctions]
      simp [and_assoc]
    by_cases hempty : roots.isEmpty = true
    · rw [if_pos hempty]
      refine ⟨ht, hcovers, fun f hf hroot => ?_⟩
      by_cases hc : f ∈ considered
      · exact (hconsidered f hc).2
      by_cases hvisited : f ∈ t.visited
      · have hentry := (hcovers.entry f hvisited).resolve_left List.not_mem_nil
        exact ⟨hentry.1, .inl hvisited⟩
      · have hroot := (hmem f).mpr ⟨hf, hc, hvisited, hroot⟩
        rw [List.isEmpty_iff.mp hempty] at hroot
        cases hroot
    · rw [if_neg hempty]
      have hactive : ∀ f ∈ roots, p.Active s.entryPointAttr (.func f) := fun f hf =>
        active_of_isRoot hp ht ((hmem f).mp hf).1 ((hmem f).mp hf).2.2.2
      refine Ends.bind ?_
      refine (ends_markRoots hp hv hexcept hdepth roots t hactive ht).mono ?_
      rintro _ u ⟨hu, hround, hmarked⟩
      refine ih (considered ++ roots) u hu (hcovers.trans hround nofun) ?_ ?_ ?_
      · intro f hf
        rcases List.mem_append.mp hf with hf | hf
        · obtain ⟨hlive, hfunc, hseen⟩ := hconsidered f hf
          exact ⟨hlive, hround.functions hfunc, hseen.imp_left fun h => hround.visited h⟩
        · exact ⟨((hmem f).mp hf).1, hmarked f hf⟩
      · refine List.nodup_append.mpr ⟨hnodup, ?_, ?_⟩
        · rw [← hroots]
          exact p.nodup_liveFunctions.filter _
        · intro f hf g hg hfg
          exact ((hmem g).mp hg).2.1 (hfg ▸ hf)
      · have hpos : 0 < roots.length := by
          cases roots with
          | nil => exact absurd rfl hempty
          | cons f rest => exact Nat.succ_pos _
        rw [List.length_append]
        omega

end

/-! ## 6. The active code -/

section

variable {p : Program} {s : TransformSettings}

theorem Found.complete {t : PathState ActiveCode} (hp : p.Sound) (h : Found p s t) {v : Value}
    (hactive : p.Active s.entryPointAttr v) :
    (∀ f, v = .func f →
      f ∈ t.extra.functions ∧ (f ∈ t.visited ∨ (p.func f).isDeclaration = true)) ∧
    ∀ b, v = .block b → b ∈ t.extra.blocks := by
  induction hactive with
  | entryPoint hf hattr =>
    refine ⟨?_, nofun⟩
    rintro f ⟨⟩
    exact h.roots _ hf ((isRoot_iff hp).mpr (.inl hattr))
  | global hf huses =>
    refine ⟨?_, nofun⟩
    rintro f ⟨⟩
    exact h.roots _ hf ((isRoot_iff hp).mpr (.inr (.inl ⟨_, huses⟩)))
  | referenced _ hi hf huses ih =>
    refine ⟨?_, nofun⟩
    rintro f ⟨⟩
    exact h.roots _ hf ((isRoot_iff hp).mpr (.inr (.inr ⟨_, ih.2 _ rfl, _, hi, huses⟩)))
  | entry _ hentry ih =>
    refine ⟨nofun, ?_⟩
    rintro b ⟨⟩
    rcases (ih.1 _ rfl).2 with hvisited | hdeclared
    · have := (h.covers.entry _ hvisited).resolve_left List.not_mem_nil
      exact (this.2 _ hentry).resolve_right List.not_mem_nil
    · rw [Func.isDeclaration, List.isEmpty_iff] at hdeclared
      rw [Func.entryBlock?, hdeclared] at hentry
      cases hentry
  | next _ hlast hnext ih =>
    refine ⟨nofun, ?_⟩
    rintro c ⟨⟩
    have hblock := (h.covers.next _ (ih.2 _ rfl)).resolve_left List.not_mem_nil
    refine (hblock.2 _ ?_).resolve_right List.not_mem_nil
    exact List.mem_flatMap.mpr ⟨_, List.mem_of_getLast? hlast, hnext⟩

variable (hp : p.Sound) (hv : p.Verified) (hexcept : s.assumeNoExcept = false)
  (hdepth : 0 < s.maxRecursion)

include hp hv hexcept hdepth

theorem ends_search : Ends (markRounds s (p.functions.size + 1) [])
    { program := p, extra := {} } (p.Invokes s.entryPointAttr) fun _ u => Found p s u :=
  ends_markRounds hp hv hexcept hdepth _ [] _ ⟨rfl, nofun, nofun⟩ (.refl _ _) nofun List.nodup_nil
    (Nat.le_refl _)

/-- **The search finds the active code**, and nothing else. -/
theorem mem_activeCode {a : ActiveCode} (h : activeCode s p = .ok a) :
    (∀ f, f ∈ a.functions ↔ p.Active s.entryPointAttr (.func f)) ∧
      ∀ b, b ∈ a.blocks ↔ p.Active s.entryPointAttr (.block b) := by
  unfold activeCode at h
  split at h
  · rename_i t hsearch
    cases h
    have hfound := (ends_search hp hv hexcept hdepth).of_ok hsearch
    exact ⟨fun f => ⟨hfound.marked.functions f, fun hf => ((hfound.complete hp hf).1 f rfl).1⟩,
      fun b => ⟨hfound.marked.blocks b, fun hb => (hfound.complete hp hb).2 b rfl⟩⟩
  · cases h

theorem activeCode_ok : (∃ a, activeCode s p = .ok a) ↔ ¬ p.Invokes s.entryPointAttr := by
  unfold activeCode
  cases hsearch : markRounds s (p.functions.size + 1) [] { program := p, extra := {} } with
  | ok u t =>
    have hfound := (ends_search hp hv hexcept hdepth).of_ok hsearch
    refine ⟨fun _ => ?_, fun _ => ⟨t.extra, rfl⟩⟩
    rintro ⟨b, i, hb, hi, hinvoke⟩
    have hmarked := (hfound.complete hp hb).2 b rfl
    exact ((hfound.covers.next b hmarked).resolve_left List.not_mem_nil).1 i hi hinvoke
  | error e t =>
    have hinvokes := (ends_search hp hv hexcept hdepth).of_error hsearch
    refine ⟨?_, fun h => absurd hinvokes h⟩
    rintro ⟨a, ha⟩
    cases ha

end

/-! ## 7. At depth zero -/

/-- No block has been found. -/
def FindsNothing (t u : PathState ActiveCode) : Prop :=
  u.extra.blocks = t.extra.blocks

instance : IsPreorder (PathState ActiveCode) FindsNothing where
  refl _ := rfl
  trans _ _ _ h₁ h₂ := h₂.trans h₁

section

variable {p : Program} {s : TransformSettings} {a : ActiveCode} (hdepth : s.maxRecursion = 0)

include hdepth

theorem walk_of_zero {τ : Type} (visit : Visitor τ) (g : FuncId) :
    Walk.walk s.limits visit g = pure false := by
  rw [Walk.walk, show s.limits.maxDepth = 0 from hdepth]
  rfl

theorem findsNothing_markRoots (roots : List FuncId) : Keeps FindsNothing (markRoots s roots) := by
  induction roots with
  | nil => exact keeps_pure _
  | cons root rest ih =>
    unfold markRoots
    rw [walk_of_zero hdepth]
    refine keeps_bind (fun t _ u h => ?_) fun _ => keeps_bind (keeps_pure _) fun _ => ih
    obtain rfl := modify_ok h
    exact rfl

theorem findsNothing_markRounds (fuel : Nat) (considered : List FuncId) :
    Keeps FindsNothing (markRounds s fuel considered) := by
  induction fuel generalizing considered with
  | zero => exact keeps_pure _
  | succ fuel ih =>
    unfold markRounds
    refine keeps_bind keeps_get fun t => ?_
    dsimp only
    split
    · exact keeps_pure _
    · exact keeps_bind (findsNothing_markRoots hdepth _) fun _ => ih _

theorem activeCode_blocks_of_zero (h : activeCode s p = .ok a) : a.blocks = [] := by
  unfold activeCode at h
  split at h
  · rename_i t hsearch
    cases h
    exact findsNothing_markRounds hdepth _ _ _ _ _ hsearch
  · cases h

end

end Transform

end QirProfile
