import QirProfile.Proofs.Rule.Operations

/-!
# Replaying calls on an allocator

A replay takes calls in a given order and does on an allocator what each of them asks a runtime for
(`Program.replay`). It notes where each allocation starts, and a release gives that address back.
-/

namespace QirProfile

open Allocator (Request Roomy)

namespace Program

open Replacing (allocationName KnownCall Sensible)

/-! ## 1. Replays -/

/-- One call of a replay: `fates` tells where the allocations before start. -/
def replayCall (p : Program) (fates : InstrId → Option Fate) (id : InstrId) :
    Allocating (InstrId → Option Fate) :=
  match p.request? fates id with
  | none => return fates
  | some none => return Function.update fates id (some .dropped)
  | some (some (.allocate name count)) => do
    let start ← Allocator.allocate name count
    return Function.update fates id (some (.placed start count))
  | some (some r) => do
    _ ← r.perform
    return Function.update fates id (some .dropped)

/-- A replay of calls in order. -/
def replay (p : Program) (ids : List InstrId) : Allocating (InstrId → Option Fate) :=
  ids.foldlM p.replayCall fun _ => none

/-- How many addresses a call asks for. -/
def requested (p : Program) (id : InstrId) : Nat :=
  match p.operation? id with
  | some (.allocate count) => count
  | _ => 0

/-- How many addresses calls ask for together. -/
def demand (p : Program) (ids : List InstrId) : Nat := (ids.map p.requested).sum

variable {p : Program} {fates fates' : InstrId → Option Fate} {id site : InstrId}
  {done ids rest : List InstrId} {a a' : Allocator}

theorem demand_cons : p.demand (id :: ids) = p.requested id + p.demand ids := rfl

theorem demand_append : p.demand (ids ++ rest) = p.demand ids + p.demand rest := by
  simp [demand]

theorem demand_reverse : p.demand ids.reverse = p.demand ids := by
  simp [demand, List.sum_reverse]

theorem replay_append (h : p.replay ids a = .ok fates a') :
    p.replay (ids ++ rest) a = rest.foldlM p.replayCall fates a' := by
  unfold replay at h ⊢
  rw [List.foldlM_append, bind_of_ok h]

theorem replay_concat (h : p.replay ids a = .ok fates a') :
    p.replay (ids ++ [id]) a = p.replayCall fates id a' := by
  rw [replay_append h, List.foldlM_cons]
  simp

theorem replay_of_error {cause : AllocationError} {b : Allocator} (h : p.replay ids a = .ok fates a')
    (hcall : p.replayCall fates id a' = .error cause b) :
    p.replay (ids ++ id :: rest) a = .error cause b := by
  rw [replay_append h, List.foldlM_cons, bind_of_error hcall]

/-! ## 2. What has been noted -/

theorem request?_cases {r : Option Request} (h : p.request? fates id = some r) :
    (∃ count, p.operation? id = some (.allocate count) ∧
        r = some (.allocate (allocationName (p.instr id)) count)) ∨
      ∃ site start count, p.operation? id = some (.release site) ∧
        fates site = some (.placed start count) ∧
        r = if count = 0 then none else some (.release start) := by
  unfold request? at h
  cases ho : p.operation? id with
  | none =>
    rw [ho] at h
    cases h
  | some o =>
    cases o with
    | allocate count =>
      simp only [ho, Option.some_inj] at h
      exact .inl ⟨count, rfl, h.symm⟩
    | release site =>
      simp only [ho] at h
      cases hsite : fates site with
      | none => simp [hsite] at h
      | some fate =>
        cases fate with
        | dropped => simp [hsite] at h
        | placed start count =>
          simp only [hsite, Option.some_inj] at h
          exact .inr ⟨site, start, count, rfl, hsite, h.symm⟩

/-- What a call of a replay that succeeds has done. -/
inductive Called (p : Program) (fates : InstrId → Option Fate) (id : InstrId) (a : Allocator) :
    (InstrId → Option Fate) → Allocator → Prop where
  | quiet (h : p.request? fates id = none) : Called p fates id a fates a
  | skipped (h : p.request? fates id = some none) :
      Called p fates id a (Function.update fates id (some .dropped)) a
  | placed {name : String} {count start : Nat} {a' : Allocator}
      (h : p.request? fates id = some (some (.allocate name count)))
      (ha : Allocator.allocate name count a = .ok start a') :
      Called p fates id a (Function.update fates id (some (.placed start count))) a'
  | released {start : Nat} {a' : Allocator} (h : p.request? fates id = some (some (.release start)))
      (ha : Allocator.release start a = .ok () a') :
      Called p fates id a (Function.update fates id (some .dropped)) a'

theorem called_iff : p.replayCall fates id a = .ok fates' a' ↔ p.Called fates id a fates' a' := by
  unfold replayCall
  constructor
  · intro h
    cases hr : p.request? fates id with
    | none =>
      rw [hr] at h
      cases h
      exact .quiet hr
    | some r =>
      rw [hr] at h
      rcases request?_cases hr with ⟨count, -, rfl⟩ | ⟨site, start, count, -, -, rfl⟩
      · obtain ⟨start, b, ha, h⟩ := bind_ok h
        cases h
        exact .placed hr ha
      · by_cases hcount : count = 0
        · rw [if_pos hcount] at hr h
          cases h
          exact .skipped hr
        · rw [if_neg hcount] at hr h
          obtain ⟨answer, b, ha, h⟩ := bind_ok h
          cases h
          obtain ⟨u, hu⟩ : ∃ u, Allocator.release start a = .ok u a' := by
            simp only [Request.perform, Functor.map, EStateM.map] at ha
            split at ha
            · rename_i u b hb
              cases ha
              exact ⟨u, hb⟩
            · cases ha
          exact .released hr hu
  · rintro (hr | hr | ⟨hr, ha⟩ | ⟨hr, ha⟩)
    · rw [hr]
      rfl
    · rw [hr]
      rfl
    · rw [hr]
      exact bind_of_ok ha _
    · rw [hr]
      refine bind_of_ok (a := none) ?_ _
      simp [Request.perform, Functor.map, EStateM.map, ha]

theorem replayCall_of_refused {r : Request} {cause : AllocationError}
    (h : p.request? fates id = some (some r)) (hr : Replacing.Refuses a r cause) :
    ∃ b, p.replayCall fates id a = .error cause b := by
  obtain ⟨b, hb⟩ := hr
  unfold replayCall
  rcases request?_cases h with ⟨count, -, heq⟩ | ⟨site, start, count, -, -, heq⟩
  · obtain rfl := Option.some.inj heq
    rw [h]
    dsimp only
    refine ⟨b, bind_of_error ?_ _⟩
    simp only [Request.perform, Functor.map, EStateM.map] at hb
    split at hb
    · cases hb
    · rename_i e b' he
      cases hb
      exact he
  · by_cases hcount : count = 0
    · rw [if_pos hcount] at heq
      cases heq
    · rw [if_neg hcount] at heq
      obtain rfl := Option.some.inj heq
      rw [h]
      exact ⟨b, bind_of_error hb _⟩

end Program

/-! ## 3. Giving back -/

namespace Allocator

variable {a a' : Allocator} {b : Allocation} {name : String} {address count start : Nat}

theorem putBack_frame (a : Allocator) (b : Allocation) :
    (a.putBack b).live = a.live.filter (·.start != b.start) ∧ (a.putBack b).nextId = a.nextId ∧
      (a.putBack b).mayExtend = a.mayExtend ∧ (a.putBack b).inUse = a.inUse - b.count := by
  unfold putBack
  dsimp only
  split <;> exact ⟨rfl, rfl, rfl, rfl⟩

theorem release_ok : release address a = .ok () a' ↔
    ∃ b, a.live.find? (·.start == address) = some b ∧ a' = a.putBack b := by
  unfold release
  rw [get_bind]
  cases hfound : a.live.find? (·.start == address) with
  | none => exact ⟨nofun, nofun⟩
  | some b =>
    have hb : b.start = address := by simpa using List.find?_some hfound
    subst hb
    constructor
    · intro h
      cases h
      exact ⟨b, rfl, rfl⟩
    · rintro ⟨c, hc, rfl⟩
      cases hc
      rfl

theorem Sound.release (h : a.Sound) (hb : b ∈ a.live) :
    Allocator.release b.start a = .ok () (a.putBack b) :=
  release_ok.mpr ⟨b, find_live h.sorted hb, rfl⟩

theorem Sound.allocated (h : a.Sound) (ha : Allocator.allocate name count a = .ok start a') :
    a'.Sound ∧ start ≤ a'.nextId ∧ a'.nextId ≤ a.nextId + count ∧
      (count ≠ 0 → (∃ e ∈ a'.live, e.start = start) ∧ ∀ e ∈ a.live, e ∈ a'.live ∧ e.start ≠ start) ∧
      (count = 0 → a' = a) := by
  have hallocated := allocate_ok ha
  have hsound := sound_allocated h hallocated
  have henter : ∀ {c : Allocation}, c.start = start → a'.live = insertLive c a.live →
      (∃ e ∈ a'.live, e.start = start) ∧ ∀ e ∈ a.live, e ∈ a'.live ∧ e.start ≠ start := by
    intro c hc hlive
    have hperm := insertLive_perm c a.live
    refine ⟨⟨c, hlive ▸ hperm.mem_iff.mpr List.mem_cons_self, hc⟩, fun e he => ⟨?_, ?_⟩⟩
    · exact hlive ▸ hperm.mem_iff.mpr (List.mem_cons_of_mem c he)
    · have hsorted : ((c :: a.live).map (·.start)).Nodup := by
        refine (hperm.map _).nodup_iff.mp ?_
        rw [← hlive]
        exact List.pairwise_map.mpr (hsound.sorted.imp fun hlt => Nat.ne_of_lt hlt)
      intro hsame
      exact (List.nodup_cons.mp hsorted).1 (List.mem_map.mpr ⟨e, he, hsame.trans hc.symm⟩)
  cases hallocated with
  | empty => exact ⟨hsound, Nat.le_refl _, Nat.le_refl _, nofun, fun _ => rfl⟩
  | reused hword hi hbooks =>
    have hlive : a'.books.live = insertLive ⟨name, start, 1⟩ a.live := by rw [hbooks]; rfl
    have hnext : a'.books.nextId = a.nextId := by rw [hbooks]; rfl
    change a'.live = _ at hlive
    change a'.nextId = _ at hnext
    have hentered := henter rfl hlive
    obtain ⟨e, he, hstart⟩ := hentered.1
    refine ⟨hsound, ?_, by omega, fun _ => hentered, nofun⟩
    have hheld := start_mem_held hsound.nonempty he
    have := hsound.below _ hheld
    omega
  | fresh hpos hword hend hfix hbooks =>
    have hlive : a'.books.live = insertLive ⟨name, a.nextId, count⟩ a.live := by rw [hbooks]; rfl
    have hnext : a'.books.nextId = a.nextId + count := by rw [hbooks]; rfl
    change a'.live = _ at hlive
    change a'.nextId = _ at hnext
    exact ⟨hsound, by omega, by omega, fun _ => henter rfl hlive, fun hzero => by omega⟩

end Allocator

namespace Program

open Replacing (KnownCall Sensible)

variable {p : Program} {fates fates' : InstrId → Option Fate} {id site : InstrId}
  {done ids rest : List InstrId} {a a' : Allocator}

/-! ## 4. What has been noted -/

/-- What a replay has noted: each allocation starts at an address that has been asked for by then. -/
structure Booked (p : Program) (done : List InstrId) (fates : InstrId → Option Fate)
    (a : Allocator) : Prop where
  sound : a.Sound
  extent : a.nextId ≤ p.demand done
  placed : ∀ site start count, fates site = some (.placed start count) →
    site ∈ done ∧ p.operation? site = some (.allocate count) ∧ start ≤ p.demand done

theorem booked_start (ha : a.Sound) (hfresh : a.nextId = 0) : p.Booked [] (fun _ => none) a where
  sound := ha
  extent := by rw [hfresh]; exact Nat.zero_le _
  placed _ _ _ h := nomatch h

theorem requested_of_request? {name : String} {count : Nat}
    (h : p.request? fates id = some (some (.allocate name count))) :
    p.operation? id = some (.allocate count) ∧ p.requested id = count := by
  rcases request?_cases h with ⟨count', ho, heq⟩ | ⟨site, start, count', -, -, heq⟩
  · cases heq
    exact ⟨ho, by rw [requested, ho]⟩
  · by_cases hzero : count' = 0
    · rw [if_pos hzero] at heq
      cases heq
    · rw [if_neg hzero] at heq
      cases heq

theorem Booked.call (h : p.Booked done fates a) (hcall : p.Called fates id a fates' a') :
    p.Booked (id :: done) fates' a' := by
  have hmono : p.demand done ≤ p.demand (id :: done) := Nat.le_add_left _ _
  have hold : ∀ {site start count}, fates site = some (.placed start count) →
      site ∈ id :: done ∧ p.operation? site = some (.allocate count) ∧
        start ≤ p.demand (id :: done) := by
    intro site start count hsite
    obtain ⟨hmem, ho, hle⟩ := h.placed site start count hsite
    exact ⟨List.mem_cons_of_mem id hmem, ho, Nat.le_trans hle hmono⟩
  have hdropped : ∀ site start count,
      Function.update fates id (some .dropped) site = some (.placed start count) →
      site ∈ id :: done ∧ p.operation? site = some (.allocate count) ∧
        start ≤ p.demand (id :: done) := by
    intro site start count hsite
    by_cases hid : site = id
    · rw [hid, Function.update_self] at hsite
      cases hsite
    · rw [Function.update_of_ne hid] at hsite
      exact hold hsite
  cases hcall with
  | quiet => exact ⟨h.sound, Nat.le_trans h.extent hmono, fun _ _ _ hsite => hold hsite⟩
  | skipped => exact ⟨h.sound, Nat.le_trans h.extent hmono, hdropped⟩
  | @placed name count start _ hr ha =>
    obtain ⟨ho, hcount⟩ := requested_of_request? hr
    obtain ⟨hsound, hstart, hnext, -⟩ := h.sound.allocated ha
    have hextent : a'.nextId ≤ p.demand (id :: done) := by
      have := h.extent
      rw [demand_cons]
      omega
    refine ⟨hsound, hextent, fun site start' count' hsite => ?_⟩
    by_cases hid : site = id
    · subst hid
      rw [Function.update_self, Option.some_inj] at hsite
      cases hsite
      exact ⟨List.mem_cons_self, ho, Nat.le_trans hstart hextent⟩
    · rw [Function.update_of_ne hid] at hsite
      exact hold hsite
  | released _ ha =>
    obtain ⟨b, hb, rfl⟩ := Allocator.release_ok.mp ha
    obtain ⟨-, hnext, -⟩ := Allocator.putBack_frame a b
    refine ⟨h.sound.putBack (List.mem_of_find?_eq_some hb), ?_, hdropped⟩
    rw [hnext]
    exact Nat.le_trans h.extent hmono

theorem Booked.sensible (h : p.Booked done fates a) (hdemand : p.demand done < span 63) :
    Sensible p fates where
  small site start count hsite := Nat.lt_of_le_of_lt (h.placed site start count hsite).2.2 hdemand
  single site start count hsite hcalls := by
    obtain ⟨-, ho, -⟩ := h.placed site start count hsite
    rcases operation?_cases ho with ⟨heq, -⟩ | ⟨bits, size, -, hother, -⟩ | ⟨_, _, heq, -⟩
    · cases heq
      exact Nat.one_ne_zero
    · exact absurd (hcalls.unique hother) (by decide)
    · cases heq

/-! ## 5. Replays that succeed -/

/-- An allocation that holds addresses from `start` on, and that no call so far has given back. -/
def Owed (p : Program) (done : List InstrId) (fates : InstrId → Option Fate) (site : InstrId)
    (start : Nat) : Prop :=
  (∃ count, fates site = some (.placed start count) ∧ count ≠ 0) ∧
    ∀ r ∈ done, p.operation? r ≠ some (.release site)

/-- **What has not been given back is live**, and there is room for more. -/
structure Lent (p : Program) (done : List InstrId) (fates : InstrId → Option Fate)
    (a : Allocator) : Prop extends Booked p done fates a where
  grows : a.mayExtend = true
  used : a.inUse ≤ p.demand done
  held : ∀ site start, p.Owed done fates site start → ∃ e ∈ a.live, e.start = start
  apart : ∀ site site' start, p.Owed done fates site start → p.Owed done fates site' start →
    site = site'

theorem Owed.back {start : Nat} (h : p.Owed (id :: done) fates' site start)
    (hfate : ∀ count, fates' site = some (.placed start count) →
      fates site = some (.placed start count)) : p.Owed done fates site start := by
  obtain ⟨⟨count, hplaced, hcount⟩, hkept⟩ := h
  exact ⟨⟨count, hfate count hplaced, hcount⟩, fun r hr => hkept r (List.mem_cons_of_mem id hr)⟩

theorem owed_dropped {start : Nat}
    (h : p.Owed (id :: done) (Function.update fates id (some .dropped)) site start) :
    p.Owed done fates site start := by
  refine h.back fun count hplaced => ?_
  by_cases hid : site = id
  · rw [hid, Function.update_self] at hplaced
    cases hplaced
  · rwa [Function.update_of_ne hid] at hplaced

theorem Lent.settle (h : p.Lent done fates a) (hbooked : p.Booked (id :: done) fates' a)
    (howed : ∀ {site start}, p.Owed (id :: done) fates' site start → p.Owed done fates site start) :
    p.Lent (id :: done) fates' a where
  toBooked := hbooked
  grows := h.grows
  used := Nat.le_trans h.used (Nat.le_add_left _ _)
  held site start ho := h.held site start (howed ho)
  apart site site' start ho ho' := h.apart site site' start (howed ho) (howed ho')

theorem Lent.place {name : String} {count start : Nat} (h : p.Lent done fates a)
    (hr : p.request? fates id = some (some (.allocate name count)))
    (ha : Allocator.allocate name count a = .ok start a') (hroomy : a'.Roomy (p.demand (id :: done))) :
    p.Lent (id :: done) (Function.update fates id (some (.placed start count))) a' := by
  obtain ⟨-, -, -, hlive, hsame⟩ := h.sound.allocated ha
  have hback : ∀ {other start'}, other ≠ id →
      p.Owed (id :: done) (Function.update fates id (some (.placed start count))) other start' →
      p.Owed done fates other start' := fun hne howed =>
    howed.back fun _ he => by rwa [Function.update_of_ne hne] at he
  have hself : ∀ {start'},
      p.Owed (id :: done) (Function.update fates id (some (.placed start count))) id start' →
      start' = start ∧ count ≠ 0 := by
    rintro start' ⟨⟨count', hplaced, hcount⟩, -⟩
    rw [Function.update_self, Option.some_inj] at hplaced
    cases hplaced
    exact ⟨rfl, hcount⟩
  have hfresh : ∀ {other}, other ≠ id → count ≠ 0 →
      ¬ p.Owed (id :: done) (Function.update fates id (some (.placed start count))) other start := by
    intro other hne hcount howed
    obtain ⟨e, he, hstart⟩ := h.held other start (hback hne howed)
    exact ((hlive hcount).2 e he).2 hstart
  refine ⟨h.toBooked.call (.placed hr ha), hroomy.grows, hroomy.used, fun other start' howed => ?_,
    fun other other' start' howed howed' => ?_⟩
  · by_cases hne : other = id
    · subst hne
      obtain ⟨rfl, hcount⟩ := hself howed
      exact (hlive hcount).1
    · obtain ⟨e, he, hstart⟩ := h.held other start' (hback hne howed)
      by_cases hcount : count = 0
      · rw [hsame hcount]
        exact ⟨e, he, hstart⟩
      · exact ⟨e, ((hlive hcount).2 e he).1, hstart⟩
  · by_cases hne : other = id
    · subst hne
      obtain ⟨rfl, hcount⟩ := hself howed
      by_contra hdiffer
      exact hfresh (Ne.symm hdiffer) hcount howed'
    · by_cases hne' : other' = id
      · subst hne'
        obtain ⟨rfl, hcount⟩ := hself howed'
        exact (hfresh hne hcount howed).elim
      · exact h.apart other other' start' (hback hne howed) (hback hne' howed')

theorem Lent.giveBack {e : Allocation} (h : p.Lent done fates a)
    (hr : p.request? fates id = some (some (.release e.start)))
    (ho : p.operation? id = some (.release site)) (howed : p.Owed done fates site e.start)
    (he : e ∈ a.live) :
    p.Lent (id :: done) (Function.update fates id (some .dropped)) (a.putBack e) := by
  obtain ⟨hlive, -, hgrows, huse⟩ := Allocator.putBack_frame a e
  refine ⟨h.toBooked.call (.released hr (h.sound.release he)), hgrows.trans h.grows, ?_,
    fun other start' howed' => ?_, fun other other' start' howed₁ howed₂ =>
      h.apart other other' start' (owed_dropped howed₁) (owed_dropped howed₂)⟩
  · rw [huse]
    exact Nat.le_trans (Nat.sub_le _ _) (Nat.le_trans h.used (Nat.le_add_left _ _))
  · obtain ⟨e', he', rfl⟩ := h.held other start' (owed_dropped howed')
    refine ⟨e', ?_, rfl⟩
    rw [hlive]
    refine List.mem_filter.mpr ⟨he', bne_iff_ne.mpr fun hstart => ?_⟩
    have hsame := h.apart site other e.start howed (hstart ▸ owed_dropped howed')
    exact howed'.2 id List.mem_cons_self (hsame ▸ ho)

theorem Lent.call (h : p.Lent done fates a) (hroom : p.demand (id :: done) < span 64)
    (honce : ∀ site, p.operation? id = some (.release site) →
      ∀ r ∈ done, p.operation? r ≠ some (.release site)) :
    ∃ fates' a', p.Called fates id a fates' a' ∧ p.Lent (id :: done) fates' a' := by
  cases hr : p.request? fates id with
  | none =>
    have hcalled : p.Called fates id a _ a := .quiet hr
    exact ⟨_, a, hcalled, h.settle (h.toBooked.call hcalled) fun ho => ho.back fun _ he => he⟩
  | some r =>
    rcases request?_cases hr with ⟨count, ho, rfl⟩ | ⟨site, start, count, ho, hsite, rfl⟩
    · have hdemand : p.demand done + count = p.demand (id :: done) := by
        rw [demand_cons, (requested_of_request? hr).2, Nat.add_comm]
      have hroomy : a.Roomy (p.demand done) := ⟨h.sound, h.grows, h.extent, h.used⟩
      obtain ⟨start, a', ha, hroomy'⟩ := hroomy.allocate (Replacing.allocationName (p.instr id))
        count (hdemand ▸ hroom)
      exact ⟨_, a', .placed hr ha, h.place hr ha (hdemand ▸ hroomy')⟩
    · by_cases hcount : count = 0
      · rw [if_pos hcount] at hr
        have hcalled : p.Called fates id a _ a := .skipped hr
        exact ⟨_, a, hcalled, h.settle (h.toBooked.call hcalled) owed_dropped⟩
      · rw [if_neg hcount] at hr
        have howed : p.Owed done fates site start := ⟨⟨count, hsite, hcount⟩, honce site ho⟩
        obtain ⟨e, he, rfl⟩ := h.held site start howed
        exact ⟨_, a.putBack e, .released hr (h.sound.release he), h.giveBack hr ho howed he⟩

/-- A replay is not refused if there is room and nothing is given back twice. -/
theorem replay_ok {order : List InstrId} (ha : a.Sound) (hfresh : a.nextId = 0)
    (hgrows : a.mayExtend = true) (hused : a.inUse = 0) (horder : order.Nodup)
    (hdemand : p.demand order < span 64)
    (honce : ∀ r ∈ order, ∀ r' ∈ order, ∀ site, p.operation? r = some (.release site) →
      p.operation? r' = some (.release site) → r = r') :
    ∃ fates a', p.replay order a = .ok fates a' := by
  have hrun : ∀ rest done fates b, order = done.reverse ++ rest → p.Lent done fates b →
      ∃ fates' a', rest.foldlM p.replayCall fates b = .ok fates' a' := by
    intro rest
    induction rest with
    | nil => exact fun _ fates b _ _ => ⟨fates, b, rfl⟩
    | cons id rest ih =>
      intro done fates b hsplit hlent
      have hid : id ∈ order := by
        rw [hsplit]
        exact List.mem_append_right _ List.mem_cons_self
      have hdone : ∀ r ∈ done, r ∈ order := by
        intro r hr
        rw [hsplit]
        exact List.mem_append_left _ (List.mem_reverse.mpr hr)
      have hnew : id ∉ done := by
        rw [hsplit] at horder
        intro hmem
        exact (List.nodup_cons.mp (List.nodup_middle.mp horder)).1
          (List.mem_append_left rest (List.mem_reverse.mpr hmem))
      have hroom : p.demand (id :: done) < span 64 := by
        refine Nat.lt_of_le_of_lt ?_ hdemand
        rw [hsplit, demand_append, demand_reverse, demand_cons, demand_cons]
        omega
      obtain ⟨fates', b', hcalled, hlent'⟩ := hlent.call hroom fun site ho r hr ho' =>
        hnew (honce id hid r (hdone r hr) site ho ho' ▸ hr)
      obtain ⟨fates'', a', hrest⟩ := ih (id :: done) fates' b' (by rw [hsplit]; simp) hlent'
      refine ⟨fates'', a', ?_⟩
      rw [List.foldlM_cons, bind_of_ok (called_iff.mpr hcalled)]
      exact hrest
  refine hrun order [] (fun _ => none) a rfl
    ⟨booked_start ha hfresh, hgrows, by rw [hused]; exact Nat.zero_le _, ?_, ?_⟩
  · rintro site start ⟨⟨count, hplaced, -⟩, -⟩
    cases hplaced
  · rintro site site' start ⟨⟨count, hplaced, -⟩, -⟩
    cases hplaced

end Program

/-! ## 6. Visits as calls of a replay -/

namespace Replacing

variable {p : Program} {fates fates' : InstrId → Option Fate} {s s' : RuleState Addresses}
  {id : InstrId}

/-- The step: one answered call is one call of the replay. -/
theorem Answered.replays (h : Answered id fates fates' s s')
    (hasks : ∀ r, Asks s id r ↔ p.request? fates id = some r) :
    p.replayCall fates id s.extra.qubits = .ok fates' s'.extra.qubits := by
  refine Program.called_iff.mpr ?_
  cases h with
  | quiet hnone hqubits hfates =>
    rw [hqubits, hfates]
    refine .quiet (Option.eq_none_iff_forall_ne_some.mpr fun r hr => hnone r ((hasks r).mpr hr))
  | placed hask hgranted hfates =>
    rw [hfates]
    exact .placed ((hasks _).mp hask) hgranted
  | released hask hgranted hfates =>
    rw [hfates]
    exact .released ((hasks _).mp hask) hgranted
  | skipped hask hqubits hfates =>
    rw [hqubits, hfates]
    exact .skipped ((hasks _).mp hask)

theorem Refused.replays {e : CompileError} (h : Refused s id e)
    (hasks : ∀ r, Asks s id r ↔ p.request? fates id = some r) :
    ∃ cause b, p.replayCall fates id s.extra.qubits = .error cause b ∧ e = .allocation cause := by
  obtain ⟨r, cause, hask, hrefuses, rfl⟩ := h
  obtain ⟨b, hb⟩ := Program.replayCall_of_refused ((hasks _).mp hask) hrefuses
  exact ⟨cause, b, hb, rfl⟩

end Replacing

end QirProfile
