import QirProfile.Proofs.Rule.Splicing
import QirProfile.Proofs.Transform.Replays
import QirProfile.Proofs.Transform.RulesVerified

/-!
# Static addresses along a chain of blocks

Where the body of the entry point is a chain of blocks, the rules are tried on its instructions in
the order in which a machine comes to them. So each qubit gets the address that a runtime would give
it, and a program gets no static addresses just where a runtime would refuse one of its calls.
-/

namespace QirProfile

namespace Program

variable {p : Program} {f : FuncId} {chain : List BlockId}

/-! ## 1. Chains of blocks -/

/-- Where control goes from a block. -/
def exits (p : Program) (b : BlockId) : List BlockId :=
  (p.block b).instrs.flatMap fun i => (p.instr i).taken

/-- Control goes from each block to the next one and nowhere else, and not on from the last one. -/
def Leads (p : Program) : List BlockId → Prop
  | [] => True
  | [b] => p.exits b = []
  | b :: c :: rest => p.exits b = [c] ∧ p.Leads (c :: rest)

/-- The blocks of a function are a chain, joined by branches that have no other target. -/
structure Chain (p : Program) (f : FuncId) (chain : List BlockId) : Prop where
  entry : (p.func f).entryBlock? = chain.head?
  starts : chain ≠ []
  distinct : chain.Nodup
  blocks : ∀ b, b ∈ (p.func f).blocks ↔ b ∈ chain
  leads : p.Leads chain
  calm : ∀ b ∈ chain, ∀ i ∈ (p.block b).instrs, (p.instr i).isInvoke = false

/-- The instructions of some blocks in program order. -/
def along (p : Program) (chain : List BlockId) : List InstrId :=
  chain.flatMap fun b => (p.block b).instrs

theorem mem_along {i : InstrId} : i ∈ p.along chain ↔ ∃ b ∈ chain, i ∈ (p.block b).instrs :=
  List.mem_flatMap

theorem visits_chain {b : BlockId} {rest queued : List BlockId} {fuel : Nat}
    (hleads : p.Leads (b :: rest)) (hdistinct : rest.Nodup) (hnew : ∀ c ∈ rest, c ∉ queued)
    (hfuel : rest.length < fuel) : p.visits fuel ⟨[b], queued⟩ = b :: rest := by
  induction rest generalizing b queued fuel with
  | nil =>
    obtain ⟨fuel, rfl⟩ := Nat.exists_eq_add_one_of_ne_zero (Nat.ne_zero_of_lt hfuel)
    have hbehind : p.queueBehind ⟨[], queued⟩ b = ⟨[], queued⟩ := by
      change (p.exits b).foldl Frontier.push _ = _
      rw [show p.exits b = [] from hleads]
      rfl
    rw [visits]
    dsimp only
    rw [hbehind]
    cases fuel <;> rfl
  | cons c rest ih =>
    obtain ⟨fuel, rfl⟩ := Nat.exists_eq_add_one_of_ne_zero (Nat.ne_zero_of_lt hfuel)
    obtain ⟨hexits, hleads⟩ := hleads
    obtain ⟨hc, hdistinct⟩ := List.nodup_cons.mp hdistinct
    have hbehind : p.queueBehind ⟨[], queued⟩ b = ⟨[c], c :: queued⟩ := by
      change (p.exits b).foldl Frontier.push _ = _
      rw [hexits, List.foldl_cons, List.foldl_nil, Frontier.push, if_neg]
      · rfl
      · simpa using hnew c List.mem_cons_self
    rw [visits]
    dsimp only
    rw [hbehind, ih hleads hdistinct (fun d hd hmem => ?_) (by simpa using hfuel)]
    rcases List.mem_cons.mp hmem with rfl | hmem
    · exact hc hd
    · exact hnew d (List.mem_cons_of_mem c hd) hmem

theorem Chain.route (h : p.Chain f chain) (hp : p.Sound) : p.route f = p.along chain := by
  obtain ⟨b, rest, rfl⟩ := List.exists_cons_of_ne_nil h.starts
  obtain ⟨hb, hdistinct⟩ := List.nodup_cons.mp h.distinct
  have hfuel : rest.length < p.blocks.size + 1 := by
    have hsub : b :: rest ⊆ (List.range p.blocks.size).map BlockId.mk := by
      intro c hc
      have hlive := hp.block_live_of_listed ((h.blocks c).mpr hc)
      exact List.mem_map.mpr ⟨c.index, List.mem_range.mpr (block_lt_of_live hlive), rfl⟩
    have hlength := (h.distinct.subperm hsub).length_le
    rw [List.length_map, List.length_range, List.length_cons] at hlength
    omega
  unfold Program.route
  rw [h.entry]
  change (p.visits (p.blocks.size + 1) (.start b)).flatMap _ = _
  rw [Frontier.start, visits_chain h.leads hdistinct (fun c hc hmem => ?_) hfuel]
  · rfl
  · exact hb (List.mem_singleton.mp hmem ▸ hc)

theorem Chain.next_mem (h : p.Chain f chain) {b c : BlockId} (hb : b ∈ chain) (hc : c ∈ p.exits b) :
    c ∈ chain := by
  have hleads := h.leads
  clear h
  induction chain with
  | nil => cases hb
  | cons d rest ih =>
    cases rest with
    | nil =>
      obtain rfl := List.mem_singleton.mp hb
      rw [show p.exits b = [] from hleads] at hc
      cases hc
    | cons e rest =>
      obtain ⟨hexits, hleads⟩ := hleads
      rcases List.mem_cons.mp hb with rfl | hb
      · rw [hexits, List.mem_singleton] at hc
        exact List.mem_cons_of_mem b (hc ▸ List.mem_cons_self)
      · exact List.mem_cons_of_mem d (ih hb hleads)

theorem Chain.nodup_along (h : p.Chain f chain) (hp : p.Sound) : (p.along chain).Nodup := by
  refine List.nodup_flatMap.mpr ⟨fun b _ => hp.nodup_instrs b, h.distinct.imp fun {b c} hne => ?_⟩
  exact fun i hb hc => hne (Option.some.inj
    ((hp.mem_instrs.mp hb).symm.trans (hp.mem_instrs.mp hc)))

/-! ## 2. Calls of a runtime that keeps qubits -/

/-- The functions of a runtime that allocate qubits. -/
def allocations : List String :=
  ["__quantum__rt__qubit_allocate", "__quantum__rt__qubit_allocate_array"]

/-- The functions of a runtime that take qubits back. -/
def releases : List String :=
  ["__quantum__rt__qubit_release", "__quantum__rt__qubit_release_array"]

open Replacing (allocationName)

instance (id site : InstrId) : Decidable (p.Returns id site) :=
  decidable_of_iff (∃ names ∈ releases.zip allocations, p.calledName? (.instr id) = some names.1 ∧
      p.calledName? (.instr site) = some names.2 ∧ (p.instr id).operands.length = 2 ∧
      (p.instr id).operands.head? = some (.instr site)) <| by
    constructor
    · rintro ⟨names, hnames, hid, hsite, hlength, hhead⟩
      obtain ⟨v, callee, hoperands⟩ := List.length_eq_two.mp hlength
      rw [hoperands, List.head?_cons, Option.some_inj] at hhead
      subst hhead
      rcases List.mem_cons.mp hnames with rfl | hnames
      · exact .qubit (calls_iff.mpr hid) (calls_iff.mpr hsite) hoperands
      · obtain rfl := List.mem_singleton.mp hnames
        exact .array (calls_iff.mpr hid) (calls_iff.mpr hsite) hoperands
    · rintro (⟨hid, hsite, h⟩ | ⟨hid, hsite, h⟩)
      · exact ⟨_, List.mem_cons_self, calls_iff.mp hid, calls_iff.mp hsite, by simp [h]⟩
      · exact ⟨_, List.mem_cons_of_mem _ List.mem_cons_self, calls_iff.mp hid, calls_iff.mp hsite,
          by simp [h]⟩

/-- A body that calls declared functions only, the runtime by its signatures: an allocation results in
    a pointer, an array has a constant size that is not negative, and a release gives back what its
    counterpart has allocated before. Together the allocations ask for fewer addresses than a signed
    word can tell. -/
structure Straight (p : Program) (f : FuncId) (chain : List BlockId) : Prop
    extends p.Chain f chain where
  sound : p.Sound
  words : p.instrs.size < span 64
  live : (p.func f).erased = false
  declared : ∀ i ∈ p.along chain, ∀ k, (p.instr i).calledFunction? = some k →
    (p.func k).erased = false ∧ (p.func k).isDeclaration = true
  allocates : ∀ i ∈ p.along chain, ∀ name ∈ allocations, p.Calls i name →
    ∃ count, p.operation? i = some (.allocate count)
  returns : ∀ i ∈ p.along chain, ∀ name ∈ releases, p.Calls i name →
    ∃ site, p.Returns i site ∧ [site, i].Sublist (p.along chain)
  demand : p.demand (p.along chain) < span 63

theorem Straight.asked (h : p.Straight f chain) {site i : InstrId} (hsite : site ∈ p.along chain)
    (hi : p.Returns i site) : ∃ count, p.operation? site = some (.allocate count) := by
  cases hi with
  | qubit _ hcalls => exact h.allocates site hsite _ List.mem_cons_self hcalls
  | array _ hcalls =>
    exact h.allocates site hsite _ (List.mem_cons_of_mem _ List.mem_cons_self) hcalls

theorem Straight.serving (h : p.Straight f chain) : Transform.Serving p f (· ∈ chain) where
  sound := h.sound
  words := h.words
  live := h.live
  entry := by
    obtain ⟨b, rest, rfl⟩ := List.exists_cons_of_ne_nil h.starts
    exact ⟨b, h.entry, List.mem_cons_self⟩
  confined :=
    { live := fun b hb => h.sound.block_live_of_listed ((h.blocks b).mpr hb)
      onward := fun b i hb hi c hc => h.next_mem hb (List.mem_flatMap.mpr ⟨i, hi, hc⟩)
      calls := fun b i k hb hi hk => h.declared i (mem_along.mpr ⟨b, hb, hi⟩) k hk }
  direct b id hb hid name hname hcalls := by
    have hmem := mem_along.mpr ⟨b, hb, hid⟩
    obtain ⟨site, hreturns, hsub⟩ := h.returns id hmem name hname hcalls
    exact .inl ⟨site, hreturns, fun k hk => (h.declared site (hsub.mem List.mem_cons_self) k hk).1⟩
  demand := by
    rw [h.route h.sound]
    exact h.demand

/-! ## 3. What a replay settles -/

/-- A replay has come to an end for each of these calls. -/
structure Settles (p : Program) (done : List InstrId) (fates : InstrId → Option Fate) : Prop where
  placed : ∀ i ∈ done, ∀ count, p.operation? i = some (.allocate count) →
    ∃ start, fates i = some (.placed start count)
  dropped : ∀ i ∈ done, ∀ site, p.operation? i = some (.release site) → fates i = some .dropped

variable {done order : List InstrId} {fates fates' : InstrId → Option Fate} {id : InstrId}
  {a a' : Allocator}

theorem Settles.note (h : p.Settles done fates) (hnew : id ∉ done) {fate : Option Fate}
    (hplaced : ∀ count, p.operation? id = some (.allocate count) →
      ∃ start, fate = some (.placed start count))
    (hdropped : ∀ site, p.operation? id = some (.release site) → fate = some .dropped) :
    p.Settles (id :: done) (Function.update fates id fate) := by
  have hold : ∀ {i}, i ∈ done → Function.update fates id fate i = fates i := by
    intro i hi
    refine Function.update_of_ne ?_ _ _
    rintro rfl
    exact hnew hi
  refine ⟨fun i hi count ho => ?_, fun i hi site ho => ?_⟩
  all_goals
    rcases List.mem_cons.mp hi with rfl | hi
  · rw [Function.update_self]
    exact hplaced count ho
  · rw [hold hi]
    exact h.placed i hi count ho
  · rw [Function.update_self]
    exact hdropped site ho
  · rw [hold hi]
    exact h.dropped i hi site ho

theorem Settles.call (h : p.Settles done fates) (hnew : id ∉ done)
    (hreturns : ∀ site, p.operation? id = some (.release site) →
      site ∈ done ∧ ∃ count, p.operation? site = some (.allocate count))
    (hcall : p.Called fates id a fates' a') : p.Settles (id :: done) fates' := by
  have hallocates : ∀ {count}, p.operation? id = some (.allocate count) →
      p.request? fates id = some (some (.allocate (allocationName (p.instr id)) count)) := by
    intro count ho
    simp only [request?, ho]
  have hreleases : ∀ {site}, p.operation? id = some (.release site) →
      ∃ start count, p.request? fates id =
        some (if count = 0 then none else some (.release start)) := by
    intro site ho
    obtain ⟨hsite, count, hcount⟩ := hreturns site ho
    obtain ⟨start, hplaced⟩ := h.placed site hsite count hcount
    exact ⟨start, count, by simp only [request?, ho, hplaced]⟩
  cases hcall with
  | quiet hr =>
    rw [← Function.update_eq_self id fates]
    refine h.note hnew (fun count ho => ?_) fun site ho => ?_
    · rw [hallocates ho] at hr
      cases hr
    · obtain ⟨start, count, hrelease⟩ := hreleases ho
      rw [hrelease] at hr
      cases hr
  | skipped hr =>
    refine h.note hnew (fun count ho => ?_) fun _ _ => rfl
    rw [hallocates ho] at hr
    cases hr
  | placed hr =>
    refine h.note hnew (fun count ho => ?_) fun site ho => ?_
    · rw [hallocates ho] at hr
      cases hr
      exact ⟨_, rfl⟩
    · obtain ⟨start, count, hrelease⟩ := hreleases ho
      rw [hrelease, Option.some_inj] at hr
      split at hr <;> cases hr
  | released hr =>
    refine h.note hnew (fun count ho => ?_) fun _ _ => rfl
    rw [hallocates ho] at hr
    cases hr

theorem replay_settles (horder : order.Nodup)
    (hreturns : ∀ front i back, order = front ++ i :: back → ∀ site,
      p.operation? i = some (.release site) →
        site ∈ front ∧ ∃ count, p.operation? site = some (.allocate count))
    (h : p.replay order a = .ok fates a') : p.Settles order.reverse fates := by
  have hrun : ∀ rest done fates₀ b, order = done.reverse ++ rest → p.Settles done fates₀ →
      rest.foldlM p.replayCall fates₀ b = .ok fates a' → p.Settles order.reverse fates := by
    intro rest
    induction rest with
    | nil =>
      intro done fates₀ b hsplit hsettles hend
      obtain ⟨rfl, rfl⟩ := pure_ok hend
      rwa [hsplit, List.append_nil, List.reverse_reverse]
    | cons id rest ih =>
      intro done fates₀ b hsplit hsettles hend
      rw [List.foldlM_cons] at hend
      obtain ⟨fates₁, b', hcall, hend⟩ := bind_ok hend
      have hnew : id ∉ done := by
        rw [hsplit] at horder
        exact fun hmem => (List.nodup_cons.mp (List.nodup_middle.mp horder)).1
          (List.mem_append_left rest (List.mem_reverse.mpr hmem))
      refine ih (id :: done) fates₁ b' (by rw [hsplit]; simp) ?_ hend
      refine hsettles.call hnew (fun site ho => ?_) (called_iff.mp hcall)
      obtain ⟨hsite, hcount⟩ := hreturns _ id rest hsplit site ho
      exact ⟨List.mem_reverse.mp hsite, hcount⟩
  exact hrun order [] _ a rfl ⟨nofun, nofun⟩ h

theorem mem_front_of_sublist {site i : InstrId} {front back : List InstrId}
    (hnodup : (front ++ i :: back).Nodup) (h : [site, i].Sublist (front ++ i :: back)) :
    site ∈ front := by
  have hi := (List.nodup_cons.mp (List.nodup_middle.mp hnodup)).1
  obtain ⟨xs, ys, hsplit, hxs, hys⟩ := List.sublist_append_iff.mp h
  cases xs with
  | cons x xs =>
    obtain ⟨rfl, -⟩ := List.cons.inj hsplit
    exact hxs.mem List.mem_cons_self
  | nil =>
    obtain rfl : ys = [site, i] := hsplit.symm
    have hback : i ∈ back := by
      cases hys with
      | cons _ hys => exact hys.mem (List.mem_cons_of_mem site List.mem_cons_self)
      | cons_cons _ hys => exact hys.mem List.mem_cons_self
    exact (hi (List.mem_append_right front hback)).elim

theorem Straight.settles (h : p.Straight f chain)
    (hreplay : p.replay (p.along chain) a = .ok fates a') :
    p.Settles (p.along chain) fates := by
  have hall := replay_settles (h.nodup_along h.sound) (fun front i back hsplit site ho => ?_) hreplay
  · exact ⟨fun i hi => hall.placed i (List.mem_reverse.mpr hi),
      fun i hi => hall.dropped i (List.mem_reverse.mpr hi)⟩
  rcases operation?_cases ho with ⟨heq, -⟩ | ⟨_, _, heq, -⟩ | ⟨site', name, heq, hcalls, hname, -⟩
  · cases heq
  · cases heq
  · cases heq
    have hi : i ∈ p.along chain := by
      rw [hsplit]
      exact List.mem_append_right front List.mem_cons_self
    obtain ⟨site', hreturns, hsub⟩ := h.returns i hi name hname hcalls
    obtain rfl : site' = site := by
      have hsame := hreturns.operation?.symm.trans ho
      rw [Option.some_inj] at hsame
      exact Operation.release.inj hsame
    refine ⟨?_, h.asked (hsub.mem List.mem_cons_self) hreturns⟩
    exact mem_front_of_sublist (hsplit ▸ h.nodup_along h.sound) (hsplit ▸ hsub)

end Program

/-! ## 4. What the schedule does then -/

namespace Replacing

open Program

/-- In the program `q` each call of `p` that was settled has had its fate: `place` tells what stands
    where an instruction stood, and `pointer` what has come for an allocation. -/
structure Resolved (p q : Program) (fates : InstrId → Option Fate)
    (place : InstrId → List InstrId) (pointer : InstrId → InstrId) : Prop where
  listed : ∀ b, (q.block b).instrs = (p.block b).instrs.flatMap place
  placed : ∀ site start count, fates site = some (.placed start count) →
    (q.instr site).erased = true ∧ place site = [pointer site] ∧
      (q.instr (pointer site)).kind = .cast .inttoptr ∧
      (q.instr (pointer site)).ty = (p.instr site).ty ∧
      (q.instr (pointer site)).operands = [.int 64 start]
  dropped : ∀ i, fates i = some .dropped → (q.instr i).erased = true ∧ place i = []
  used : ∀ site start count i (n : Nat), fates site = some (.placed start count) →
    (q.instr i).erased = false → (p.instr i).operands[n]? = some (Value.instr site) →
    (q.instr i).operands[n]? = some (Value.instr (pointer site))

variable {p q : Program} {done : List InstrId} {fates : InstrId → Option Fate} {T : Traces}
  {s : RuleState Addresses} {i : InstrId}

theorem Following.guest (h : Following p done fates T s) {r : Replacement} (hr : r ∈ s.scheduled)
    {a : InstrId} (ha : r.new = some a) : a ∉ s.scheduled.map (·.old) := by
  obtain ⟨-, hge, ty, bits, address, hpointer⟩ := h.news r hr a ha
  intro hmem
  obtain ⟨x, hx, rfl⟩ := List.mem_map.mp hmem
  rcases (h.scheduled x hx).2 with hdone | ⟨-, hkind | ⟨name, -, hcalls⟩⟩
  · obtain ⟨b, hb⟩ := Option.isSome_iff_exists.mp (h.stand _ hdone)
    exact Nat.not_le.mpr (instr_lt_of_parent hb) hge
  · rw [hpointer] at hkind
    cases hkind
  · exact hcalls.not_cast ((congrArg Instr.kind hpointer).trans rfl)

theorem Following.ready (h : Following p done fates T s) : Ready s.scheduled s.program where
  sound := h.sound
  olds := h.olds
  news := h.distinct
  live r hr := (h.scheduled r hr).1
  stand r hr hnew := by
    obtain ⟨a, ha⟩ := Option.isSome_iff_exists.mp hnew
    have hstand := h.stand r.old (h.news r hr a ha).1
    obtain ⟨b, hb⟩ := Option.isSome_iff_exists.mp hstand
    rw [(h.instr r.old (instr_lt_of_parent hb)).2.2.1]
    exact hstand
  guests r hr a ha := by
    obtain ⟨-, -, ty, bits, address, hpointer⟩ := h.news r hr a ha
    exact ⟨h.guest hr ha, by rw [hpointer]; exact ⟨rfl, rfl⟩⟩

theorem forall₂_getElem? {α β : Type} {R : α → β → Prop} {l : List α} {m : List β}
    (h : List.Forall₂ R l m) {n : Nat} {v : α} (hv : l[n]? = some v) :
    ∃ w, m[n]? = some w ∧ R v w := by
  induction h generalizing n with
  | nil => cases hv
  | cons hw _ ih =>
    cases n with
    | zero =>
      cases hv
      exact ⟨_, rfl, hw⟩
    | succ n => exact ih hv

theorem eq_of_kept {v w : Value} (hw : Value.Kept (s.scheduled.reverse.map (·.old)) v w)
    (hparts : v.hasParts = false) (hv : ∀ x, v = .instr x → x ∉ s.scheduled.map (·.old)) : w = v := by
  refine hw hparts fun o ho heq => hv o heq ?_
  rw [List.map_reverse] at ho
  exact List.mem_reverse.mp ho

section

variable {k : FuncId} {g : Func → Func} (h : Following p done fates T s)
  (hq : Spliced s.scheduled.reverse (s.program.updateFunc k g) q)

include h hq

theorem Following.spliced_of_mem {r : Replacement} (hr : r ∈ s.scheduled) :
    splice s.scheduled.reverse r.old = r.new.toList ∧ (q.instr r.old).erased = true := by
  have hmem := List.mem_reverse.mpr hr
  refine ⟨splice_of_mem ?_ hmem, hq.gone _ (List.mem_map_of_mem hmem)⟩
  rw [List.map_reverse, List.nodup_reverse]
  exact h.olds

theorem Following.resolved (hsmall : ∀ site start count, fates site = some (.placed start count) →
      start < span 63) :
    Resolved p q fates (fun i => (T.place i).flatMap (splice s.scheduled.reverse)) T.turned where
  listed b := by
    have hlisted := hq.listed b
    change _ = (s.program.block b).instrs.flatMap _ at hlisted
    rw [hlisted, h.listed b, List.flatMap_assoc]
  placed site start count hfate := by
    obtain ⟨-, hentry, hpointer, -, hfront, hback⟩ := h.fated site _ hfate
    obtain ⟨hplace, hgone⟩ := h.spliced_of_mem hq hentry
    obtain ⟨hkind, hty, -⟩ := hq.instr (T.turned site)
    have hoperands := hq.operands (T.turned site)
    change _ = (s.program.instr _).kind at hkind
    change _ = (s.program.instr _).ty at hty
    change List.Forall₂ _ (s.program.instr _).operands _ at hoperands
    rw [hpointer] at hkind hty hoperands
    refine ⟨hgone, ?_, hkind, hty, ?_⟩
    · rw [Traces.place, hfront, hback, List.nil_append, List.flatMap_singleton, hplace]
      rfl
    · obtain ⟨w, _, hw, hnil, hws⟩ := List.forall₂_cons_left_iff.mp hoperands
      obtain rfl := List.forall₂_nil_left_iff.mp hnil
      have hstays := eq_of_kept hw rfl fun _ => Value.noConfusion
      rw [hws, hstays, Value.ofInt, normalize_of_lt (hsmall site start count hfate)]
  dropped i hfate := by
    obtain ⟨-, hentry, hfront, hback⟩ := h.fated i _ hfate
    obtain ⟨hplace, hgone⟩ := h.spliced_of_mem hq hentry
    refine ⟨hgone, ?_⟩
    rw [Traces.place, hfront, hback, List.nil_append, List.flatMap_singleton, hplace]
    rfl
  used site start count i n hfate hlive hn := by
    obtain ⟨-, hentry, -⟩ := h.fated site _ hfate
    have hlt : i.index < p.instrs.size := by
      by_contra hge
      rw [instr_of_le (Nat.not_lt.mp hge)] at hn
      cases hn
    have hstays : i ∉ s.scheduled.reverse.map (·.old) := by
      intro hmem
      rw [hq.gone i hmem] at hlive
      cases hlive
    have hlive' : (p.instr i).erased = false := by
      rw [← (h.instr i hlt).2.2.2]
      exact (hq.live i hstays).symm.trans hlive
    obtain ⟨v, hv, hturned⟩ := forall₂_getElem? (h.operands i hlt hlive') hn
    obtain ⟨w, hw, hkept⟩ := forall₂_getElem? (hq.operands i) hv
    cases hturned with
    | instr =>
      rw [hw, eq_of_kept hkept rfl fun x hx => ?_]
      cases hx
      exact h.guest hentry rfl
    | same hnone => cases hnone
    | inside hparts => cases hparts

theorem Following.none_left (hg : ∀ fn, (g fn).name = fn.name) {b : BlockId} {name : String}
    (hname : name ∉ insertedCalls) (hknown : ∀ i ∈ (p.block b).instrs, KnownCall p i)
    (hsettled : ∀ i ∈ (p.block b).instrs, p.Calls i name → ∃ fate, fates i = some fate)
    (hi : i ∈ (q.block b).instrs) : ¬ q.Calls i name := by
  have hlisted := hq.listed b
  change _ = (s.program.block b).instrs.flatMap _ at hlisted
  rw [hlisted, List.mem_flatMap] at hi
  obtain ⟨j, hj, hi⟩ := hi
  rintro ⟨k', hk', rfl⟩
  -- the call was there before the schedule was carried out
  have hcalls : s.program.Calls i (q.func k').name := by
    refine ⟨k', (hq.instr i).2.2.callee.symm.trans hk', ?_⟩
    rw [hq.func k', func_updateFunc]
    split
    · exact (hg _).symm
    · rfl
  by_cases hold : j ∈ s.scheduled.map (·.old)
  · obtain ⟨r, hr, rfl⟩ := List.mem_map.mp hold
    rw [(h.spliced_of_mem hq hr).1, Option.mem_toList] at hi
    obtain ⟨-, -, ty, bits, address, hpointer⟩ := h.news r hr i hi
    have hcast : (s.program.instr i).kind = .cast .inttoptr := by rw [hpointer]; rfl
    exact absurd hcast hcalls.not_cast
  · rw [splice_of_not_mem (by rwa [List.map_reverse, List.mem_reverse]), List.mem_singleton] at hi
    subst hi
    by_cases hlt : i.index < p.instrs.size
    · have hstand := h.sound.mem_instrs.mp hj
      rw [(h.instr i hlt).2.2.1] at hstand
      have hmem := h.base.mem_instrs.mpr hstand
      obtain ⟨fate, hfate⟩ := hsettled i hmem ((h.calls_iff hlt (hknown i hmem)).mp hcalls)
      obtain ⟨-, hassured⟩ := h.fated i fate hfate
      refine hold (List.mem_map.mpr ?_)
      cases fate with
      | placed => exact ⟨_, hassured.1, rfl⟩
      | dropped => exact ⟨_, hassured.1, rfl⟩
    · obtain ⟨k, hk, hsame⟩ := hcalls
      exact hname (hsame ▸ h.new i k (Nat.not_lt.mp hlt) hk)

end

end Replacing

/-! ## 5. Trying the rules and replaying the calls -/

namespace Transform

open Program Replacing

variable {p : Program} {f : FuncId} {chain : List BlockId} {fates : InstrId → Option Fate}

/-- Each call of the program `p` that allocates or releases qubits has given way to what a replay says,
    in the program `q`. -/
structure Addressed (p q : Program) (f : FuncId) (chain : List BlockId)
    (fates : InstrId → Option Fate) (place : InstrId → List InstrId) (pointer : InstrId → InstrId) :
    Prop extends Resolved p q fates place pointer where
  settled : ∀ i ∈ p.along chain, ∀ name ∈ allocations, p.Calls i name →
    ∃ start count, fates i = some (.placed start count)
  left : ∀ b ∈ (q.func f).blocks, ∀ i ∈ (q.block b).instrs, ∀ name ∈ allocations ++ releases,
    ¬ q.Calls i name

theorem Straight.addressed {a : Allocator} {s : RuleState Addresses} {q : Program} {g : Func → Func}
    (h : p.Straight f chain) (hreplayed : Replayed p a (p.along chain).reverse s)
    (hg : ∀ fn, (g fn).blocks = fn.blocks ∧ (g fn).name = fn.name)
    (hq : Spliced s.scheduled.reverse (s.program.updateFunc f g) q) :
    ∃ fates place pointer, p.replay (p.along chain) a = .ok fates s.extra.qubits ∧
      Addressed p q f chain fates place pointer := by
  obtain ⟨fates, T, hfollowing, hreplay, hbooked⟩ := hreplayed
  rw [List.reverse_reverse] at hreplay
  have hsettles := h.settles hreplay
  have hdemand : p.demand (p.along chain).reverse < span 63 := by
    rw [demand_reverse]
    exact h.demand
  have hresolved := hfollowing.resolved hq (hbooked.sensible hdemand).small
  have hlisted : (q.func f).blocks = (p.func f).blocks := by
    rw [hq.func, func_updateFunc, ← hfollowing.func f (func_lt_of_live h.live)]
    split
    · exact (hg _).1
    · rfl
  refine ⟨fates, _, _, hreplay, hresolved, fun i hi name hname hcalls => ?_,
    fun b hb i hi name hname => ?_⟩
  · obtain ⟨count, ho⟩ := h.allocates i hi name hname hcalls
    obtain ⟨start, hstart⟩ := hsettles.placed i hi count ho
    exact ⟨start, count, hstart⟩
  · have hb := (h.blocks b).mp (hlisted ▸ hb)
    refine hfollowing.none_left hq (fun fn => (hg fn).2) ?_ (fun j hj k hk => ?_)
      (fun j hj hcalls => ?_) hi
    · revert name
      decide
    · exact (h.declared j (mem_along.mpr ⟨b, hb, hj⟩) k hk).1
    · have hmem := mem_along.mpr ⟨b, hb, hj⟩
      rcases List.mem_append.mp hname with hname | hname
      · obtain ⟨count, ho⟩ := h.allocates j hmem name hname hcalls
        obtain ⟨start, hstart⟩ := hsettles.placed j hmem count ho
        exact ⟨_, hstart⟩
      · obtain ⟨site, hreturns, -⟩ := h.returns j hmem name hname hcalls
        exact ⟨_, hsettles.dropped j hmem site hreturns.operation?⟩

theorem Replayed.carryOut {a : Allocator} {done : List InstrId} {u : RuleState Addresses}
    (h : Replayed p a done u) (s : TransformSettings) (f : FuncId) : ∃ n q,
      QirProfile.carryOut u.scheduled (u.program.updateFunc f (annotate s u.extra)) = .ok n q ∧
      Spliced u.scheduled.reverse (u.program.updateFunc f (annotate s u.extra)) q := by
  obtain ⟨_, T, hfollowing, -⟩ := h
  have hready := hfollowing.ready
  have hframe := sameFrame_updateFunc (annotate_frame s u.extra) u.program f
  exact carryOut_spliced ⟨(hframe.evolves hready.sound).1, hready.olds, hready.news, hready.live,
    hready.stand, hready.guests⟩

theorem applyRules_of_walk {rules : List (Rule Addresses)} {s : TransformSettings}
    {stats : TransformStatistics} {c : Compilation} (hpath : s.executionPathOnly = true)
    (hentry : s.entryPoints c.program = [f]) {E : CompileError → Prop}
    {Q : TransformStatistics → Compilation → Prop}
    (hwalk : ComesTo (Walk.walk s.limits (ruleVisitor rules) f)
      { program := c.program, extra := { addresses := c.addresses } } E fun _ u =>
        ∃ n q, carryOut u.extra.scheduled
            (u.program.updateFunc f (annotate s u.extra.addresses)) = .ok n q ∧
          ∀ stats', Q stats' ⟨q, u.extra.addresses⟩) :
    ComesTo (applyRules rules s stats) c E Q := by
  unfold applyRules
  refine ComesTo.after (a := c) (t := c) rfl ?_
  dsimp only
  rw [hentry]
  cases hx : Walk.walk s.limits (ruleVisitor rules) f
      { program := c.program, extra := { addresses := c.addresses } } with
  | error e u =>
    have htry : tryAll rules s [f] { program := c.program, extra := { addresses := c.addresses } } =
        .error e u := by
      unfold tryAll
      rw [if_pos hpath]
      exact bind_of_error (bind_of_error (bind_of_error hx _) _) _
    have hrules : runRules rules s [f] c = .error e ⟨u.program, u.extra.addresses⟩ := by
      unfold runRules
      rw [htry]
    exact comesTo_of_error (bind_of_error hrules _) (hwalk.of_error hx)
  | ok b u =>
    obtain ⟨n, q, hcarry, hQ⟩ := hwalk.of_ok hx
    have htry : tryAll rules s [f] { program := c.program, extra := { addresses := c.addresses } } =
        .ok () { u with program := u.program.updateFunc f (annotate s u.extra.addresses) } := by
      unfold tryAll
      rw [if_pos hpath]
      have hdiscard : (discard (Walk.walk s.limits (ruleVisitor rules) f) : Walk RuleRun PUnit)
          { program := c.program, extra := { addresses := c.addresses } } = .ok () u :=
        bind_of_ok hx _
      have hforM : ([f].forM fun entry => discard (Walk.walk s.limits (ruleVisitor rules) entry))
          { program := c.program, extra := { addresses := c.addresses } } = .ok () u :=
        bind_of_ok hdiscard _
      exact bind_of_ok hforM _
    have hrules : runRules rules s [f] c = .ok u.extra
        ⟨u.program.updateFunc f (annotate s u.extra.addresses), u.extra.addresses⟩ := by
      unfold runRules
      rw [htry]
    have hcompile : compile (carryOut u.extra.scheduled)
        ⟨u.program.updateFunc f (annotate s u.extra.addresses), u.extra.addresses⟩ =
          .ok n ⟨q, u.extra.addresses⟩ := by
      unfold compile
      dsimp only
      rw [hcarry]
    refine ComesTo.after hrules (ComesTo.after hcompile ?_)
    exact comesTo_of_ok rfl (hQ _)

theorem applyRules_comesTo {s : TransformSettings} {stats : TransformStatistics} {c : Compilation}
    (h : c.program.Straight f chain) (ha : Fresh c.addresses) (hpath : s.executionPathOnly = true)
    (hdepth : 0 < s.maxRecursion) (hentry : s.entryPoints c.program = [f]) :
    ComesTo (applyRules ({} : RuleSettings).rules s stats) c
      (fun e => ∃ cause b, c.program.replay (c.program.along chain) c.addresses.qubits =
        .error cause b ∧ e = .allocation cause)
      fun _ c' => ∃ fates place pointer,
        c.program.replay (c.program.along chain) c.addresses.qubits =
          .ok fates c'.addresses.qubits ∧
        Addressed c.program c'.program f chain fates place pointer := by
  refine applyRules_of_walk hpath hentry
    ((h.serving.walk ha hdepth).mono ?_ ?_)
  · rintro e (⟨cause, b, herror, rfl⟩ | ⟨name, b, i, hb, hi, hinvoke, -⟩)
    · exact ⟨cause, b, h.route h.sound ▸ herror, rfl⟩
    · rw [h.calm b hb i hi] at hinvoke
      cases hinvoke
  · rintro - u hreplayed
    rw [h.route h.sound] at hreplayed
    obtain ⟨n, q, hcarry, hq⟩ := hreplayed.carryOut s f
    refine ⟨n, q, hcarry, fun _ => ?_⟩
    refine Straight.addressed h hreplayed (fun fn => ?_) hq
    obtain ⟨hblocks, -, hname⟩ := annotate_frame s u.extra.addresses fn
    exact ⟨hblocks, hname⟩

/-- Along a chain of blocks the rules succeed just if a replay of its calls on the allocator does,
    and then every qubit has its address in the replay. The recursion limit is at least 1: with 0
    nothing is visited. -/
theorem applyRules_replays {s : TransformSettings} {stats : TransformStatistics} {c : Compilation}
    (h : c.program.Straight f chain) (ha : Fresh c.addresses) (hpath : s.executionPathOnly = true)
    (hdepth : 0 < s.maxRecursion) (hentry : s.entryPoints c.program = [f]) :
    ((∃ stats' c', applyRules ({} : RuleSettings).rules s stats c = .ok stats' c') ↔
      ∃ fates a, c.program.replay (c.program.along chain) c.addresses.qubits = .ok fates a) ∧
    ∀ stats' c', applyRules ({} : RuleSettings).rules s stats c = .ok stats' c' →
      ∃ fates place pointer, c.program.replay (c.program.along chain) c.addresses.qubits =
          .ok fates c'.addresses.qubits ∧
        Addressed c.program c'.program f chain fates place pointer := by
  have hrun : ComesTo (applyRules ({} : RuleSettings).rules s stats) c _ _ :=
    applyRules_comesTo h ha hpath hdepth hentry
  refine ⟨⟨?_, ?_⟩, fun stats' c' hok => hrun.of_ok hok⟩
  · rintro ⟨stats', c', hok⟩
    obtain ⟨fates, -, -, hreplay, -⟩ := hrun.of_ok hok
    exact ⟨fates, _, hreplay⟩
  · rintro ⟨fates, a, hreplay⟩
    cases hx : applyRules ({} : RuleSettings).rules s stats c with
    | ok stats' c' => exact ⟨stats', c', rfl⟩
    | error e c' =>
      obtain ⟨cause, b, herror, -⟩ := hrun.of_error hx
      rw [hreplay] at herror
      cases herror

/-- Two blocks in a row: a qubit, an array of two and an empty one are allocated in the first block,
    and what is not given back there is given back in the second. -/
def relay : Program where
  name := "relay"
  namedTypes := [("Qubit", none), ("Array", none)]
  functions := #[
    ⟨"__quantum__rt__qubit_allocate", .ptr (.named "Qubit"), [], false, none, none, [], [], false⟩,
    ⟨"__quantum__rt__qubit_release", .void, [⟨none, .ptr (.named "Qubit")⟩], false, none, none, [],
      [], false⟩,
    ⟨"__quantum__rt__qubit_allocate_array", .ptr (.named "Array"), [⟨none, .int 64⟩], false, none,
      none, [], [], false⟩,
    ⟨"__quantum__rt__qubit_release_array", .void, [⟨none, .ptr (.named "Array")⟩], false, none,
      none, [], [], false⟩,
    ⟨"Main", .void, [], false, none, none, [.pair "EntryPoint" none], [⟨0⟩, ⟨1⟩], false⟩]
  blocks := #[
    ⟨some "first", some ⟨4⟩, [⟨0⟩, ⟨1⟩, ⟨2⟩, ⟨3⟩, ⟨4⟩], false⟩,
    ⟨some "second", some ⟨4⟩, [⟨5⟩, ⟨6⟩, ⟨7⟩, ⟨8⟩, ⟨9⟩], false⟩]
  instrs := #[
    ⟨.call .none, .ptr (.named "Qubit"), [.func ⟨0⟩], some "a", some ⟨0⟩, false⟩,
    ⟨.call .none, .ptr (.named "Array"), [.int 64 2, .func ⟨2⟩], some "r", some ⟨0⟩, false⟩,
    ⟨.call .none, .ptr (.named "Array"), [.int 64 0, .func ⟨2⟩], some "e", some ⟨0⟩, false⟩,
    ⟨.call .none, .void, [.instr ⟨0⟩, .func ⟨1⟩], none, some ⟨0⟩, false⟩,
    ⟨.br, .void, [.block ⟨1⟩], none, some ⟨0⟩, false⟩,
    ⟨.call .none, .ptr (.named "Qubit"), [.func ⟨0⟩], some "b", some ⟨1⟩, false⟩,
    ⟨.call .none, .void, [.instr ⟨2⟩, .func ⟨3⟩], none, some ⟨1⟩, false⟩,
    ⟨.call .none, .void, [.instr ⟨1⟩, .func ⟨3⟩], none, some ⟨1⟩, false⟩,
    ⟨.call .none, .void, [.instr ⟨5⟩, .func ⟨1⟩], none, some ⟨1⟩, false⟩,
    ⟨.ret, .void, [], none, some ⟨1⟩, false⟩]

theorem straight_relay : relay.Straight ⟨4⟩ [⟨0⟩, ⟨1⟩] where
  entry := rfl
  starts := List.cons_ne_nil _ _
  distinct := by decide
  blocks _ := Iff.rfl
  leads := ⟨rfl, rfl⟩
  calm := by decide
  sound := by decide +kernel
  words := by decide
  live := rfl
  declared :=
    (by decide : ∀ i ∈ relay.along [⟨0⟩, ⟨1⟩], ∀ k ∈ (relay.instr i).calledFunction?,
      (relay.func k).erased = false ∧ (relay.func k).isDeclaration = true)
  allocates i hi name hname hcalls := by
    have hall : ∀ i ∈ relay.along [⟨0⟩, ⟨1⟩], ∀ name ∈ allocations,
        relay.calledName? (.instr i) = some name →
          ∃ count ∈ [0, 1, 2], relay.operation? i = some (.allocate count) := by
      decide
    obtain ⟨count, -, ho⟩ := hall i hi name hname (calls_iff.mp hcalls)
    exact ⟨count, ho⟩
  returns i hi name hname hcalls := by
    have hall : ∀ i ∈ relay.along [⟨0⟩, ⟨1⟩], ∀ name ∈ releases,
        relay.calledName? (.instr i) = some name → ∃ site ∈ relay.along [⟨0⟩, ⟨1⟩],
          relay.Returns i site ∧ [site, i].Sublist (relay.along [⟨0⟩, ⟨1⟩]) := by
      decide
    obtain ⟨site, -, hsite⟩ := hall i hi name hname (calls_iff.mp hcalls)
    exact ⟨site, hsite⟩
  demand := by decide

theorem fresh_start : Fresh {} where
  qubits := Allocator.sound_withCapacity 8 true
  none := rfl
  results := ⟨Allocator.sound_withCapacity 8 true, rfl, Nat.le_refl 0, Nat.le_refl 0⟩
  empty := rfl

theorem applyRules_replays_relay : ∃ stats c fates place pointer,
    applyRules ({} : RuleSettings).rules {} {} { program := relay } = .ok stats c ∧
      (c.program.block ⟨0⟩).instrs = [⟨10⟩, ⟨11⟩, ⟨12⟩, ⟨4⟩] ∧
      (c.program.block ⟨1⟩).instrs = [⟨13⟩, ⟨9⟩] ∧
      [⟨10⟩, ⟨11⟩, ⟨12⟩, ⟨13⟩].map (fun i => (c.program.instr i).operands) =
        [[.int 64 0], [.int 64 1], [.int 64 3], [.int 64 0]] ∧
      relay.replay (relay.along [⟨0⟩, ⟨1⟩]) {} = .ok fates c.addresses.qubits ∧
      Addressed relay c.program ⟨4⟩ [⟨0⟩, ⟨1⟩] fates place pointer := by
  obtain ⟨stats, c, hok, hfirst, hsecond, hpointers⟩ := exists_ok
    (r := applyRules ({} : RuleSettings).rules {} {} { program := relay })
    (P := fun c => (c.program.block ⟨0⟩).instrs = [⟨10⟩, ⟨11⟩, ⟨12⟩, ⟨4⟩] ∧
      (c.program.block ⟨1⟩).instrs = [⟨13⟩, ⟨9⟩] ∧
      [⟨10⟩, ⟨11⟩, ⟨12⟩, ⟨13⟩].map (fun i => (c.program.instr i).operands) =
        [[.int 64 0], [.int 64 1], [.int 64 3], [.int 64 0]]) (by decide +kernel)
  obtain ⟨fates, place, pointer, hreplay, haddressed⟩ :=
    (applyRules_replays (s := {}) (c := { program := relay }) straight_relay fresh_start rfl
      (by decide) rfl).2 stats c hok
  exact ⟨stats, c, fates, place, pointer, hok, hfirst, hsecond, hpointers, hreplay, haddressed⟩

end Transform

end QirProfile
