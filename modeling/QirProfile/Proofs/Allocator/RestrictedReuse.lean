import Mathlib.Data.List.Basic
import QirProfile.Proofs.Allocator.Books

/-!
# Restricted reuse

An address that was released in a segment of an area, or in an area nested in that segment, and was
not handed out again before the segment was closed, stays blocked until the area ends.

An area is known by its depth: while at least `k` areas are open, the area at depth `k` is the same
one, and its scope is the scope at index `k`. The released address is followed through the free
lists by one invariant, `Parted`, which says in which scopes the address may still be free:

* before the segment is closed, only in the scope at `k` and in scopes nested in it;
* behind it, only among the prohibited addresses of the scope at `k`.
-/

namespace QirProfile.Allocator

variable {k x : Nat} {prohibitedAt allowedAt : Nat → Prop} {a : Allocator}

/-! ## 1. What happens along a run -/

/-- `P` holds at every request of a run, in the state that meets the request. -/
def Along (P : Allocator → Request → Prop) : Allocator → List Request → Prop
  | _, [] => True
  | a, r :: rs => P a r ∧ Along P (a.serve r) rs

instance {P : Allocator → Request → Prop} [∀ a r, Decidable (P a r)] :
    ∀ (a : Allocator) (rs : List Request), Decidable (Along P a rs)
  | _, [] => inferInstanceAs (Decidable True)
  | a, r :: rs =>
    have := instDecidableAlong (P := P) (a.serve r) rs
    inferInstanceAs (Decidable (P a r ∧ Along P (a.serve r) rs))

/-- A release at the address gives back an allocation that holds `x`. -/
def TakesBack (a : Allocator) (address x : Nat) : Prop :=
  ∃ b ∈ a.live.find? (·.start == address), x ∈ b.addresses

/-- The request is answered with addresses among which `x` is. -/
def HandsOut (a : Allocator) (r : Request) (x : Nat) : Prop :=
  match r with
  | .allocate name count => ∃ start ∈ a.answer? (.allocate name count), start ≤ x ∧ x < start + count
  | _ => False

instance (a : Allocator) (address x : Nat) : Decidable (a.TakesBack address x) :=
  inferInstanceAs (Decidable (∃ b ∈ a.live.find? (·.start == address), x ∈ b.addresses))

/-! ## 2. Where a released address may be free -/

/-- The address `x` was handed out once and is not live. It is allowed only in scopes of
    `allowedAt`, and prohibited only in scopes of `prohibitedAt`. -/
structure Parted (allowedAt prohibitedAt : Nat → Prop) (x : Nat) (a : Allocator) : Prop where
  old : x < a.nextId
  notLive : x ∉ a.liveAddresses
  allowed : ∀ i s, a.scopes[i]? = some s → x ∈ s.allowed → allowedAt i
  prohibited : ∀ i s, a.scopes[i]? = some s → x ∈ s.prohibited → prohibitedAt i

section

variable {allowedAt prohibitedAt : Nat → Prop} {x : Nat} {a b : Allocator}

theorem Parted.mono (h : Parted allowedAt prohibitedAt x a) (hnext : a.nextId ≤ b.nextId)
    (hlive : x ∈ b.liveAddresses → x ∈ a.liveAddresses)
    (hscopes : ∀ (i : Nat) (s : FreeScope), b.scopes[i]? = some s → ∃ t, a.scopes[i]? = some t ∧
      (x ∈ s.allowed → x ∈ t.allowed) ∧ (x ∈ s.prohibited → x ∈ t.prohibited)) :
    Parted allowedAt prohibitedAt x b := by
  refine ⟨Nat.lt_of_lt_of_le h.old hnext, fun hx => h.notLive (hlive hx), ?_, ?_⟩
  · intro i s hs hx
    obtain ⟨t, ht, hallowed, -⟩ := hscopes i s hs
    exact h.allowed i t ht (hallowed hx)
  · intro i s hs hx
    obtain ⟨t, ht, -, hprohibited⟩ := hscopes i s hs
    exact h.prohibited i t ht (hprohibited hx)

theorem Parted.of_books (h : Parted allowedAt prohibitedAt x a) (e : b.books = a.books) :
    Parted allowedAt prohibitedAt x b := by
  have hnext : b.nextId = a.nextId := show b.books.nextId = a.books.nextId by rw [e]
  have hlive : b.live = a.live := show b.books.live = a.books.live by rw [e]
  refine h.mono (Nat.le_of_eq hnext.symm) ?_ fun i s hs => ?_
  · unfold liveAddresses
    rw [hlive]
    exact id
  · have hbare : (b.scopes.map bare)[i]? = (a.scopes.map bare)[i]? :=
      congrArg (fun c => c.scopes[i]?) e
    rw [List.getElem?_map, List.getElem?_map, hs] at hbare
    cases ht : a.scopes[i]? with
    | none => rw [ht] at hbare; cases hbare
    | some t =>
      rw [ht] at hbare
      have hst : bare s = bare t := Option.some.inj hbare
      have hall : s.allowed = t.allowed := show (bare s).allowed = (bare t).allowed by rw [hst]
      have hpro : s.prohibited = t.prohibited :=
        show (bare s).prohibited = (bare t).prohibited by rw [hst]
      exact ⟨t, rfl, by rw [hall]; exact id, by rw [hpro]; exact id⟩

theorem Parted.updateScope (h : Parted allowedAt prohibitedAt x a) {i : Nat}
    {f : FreeScope → FreeScope}
    (hf : ∀ s, a.scopes[i]? = some s →
      (x ∈ (f s).allowed → allowedAt i) ∧ (x ∈ (f s).prohibited → prohibitedAt i)) :
    Parted allowedAt prohibitedAt x (a.updateScope i f) := by
  have cases_scope : ∀ (j : Nat) (t : FreeScope), (a.updateScope i f).scopes[j]? = some t →
      (∃ s, i = j ∧ a.scopes[i]? = some s ∧ t = f s) ∨ a.scopes[j]? = some t := by
    intro j t ht
    rw [scopes_updateScope] at ht
    split at ht
    · rename_i hij
      subst hij
      obtain ⟨s, hs, rfl⟩ := Option.map_eq_some_iff.mp ht
      exact .inl ⟨s, rfl, hs, rfl⟩
    · exact .inr ht
  refine ⟨h.old, h.notLive, fun j t ht hx => ?_, fun j t ht hx => ?_⟩
  · rcases cases_scope j t ht with ⟨s, rfl, hs, rfl⟩ | hs
    · exact (hf s hs).1 hx
    · exact h.allowed j t hs hx
  · rcases cases_scope j t ht with ⟨s, rfl, hs, rfl⟩ | hs
    · exact (hf s hs).2 hx
    · exact h.prohibited j t hs hx

theorem Parted.enter (h : Parted allowedAt prohibitedAt x a) {c : Allocation}
    (hc : x ∉ c.addresses) : Parted allowedAt prohibitedAt x (a.enter c) := by
  refine h.mono (Nat.le_refl _) (fun hx => ?_) fun i s hs => ⟨s, hs, id, id⟩
  have hperm : (a.enter c).liveAddresses.Perm (c.addresses ++ a.liveAddresses) :=
    (insertLive_perm c a.live).flatMap_right _
  rcases List.mem_append.mp (hperm.mem_iff.mp hx) with hx | hx
  · exact absurd hx hc
  · exact hx

/-! ## 3. One request -/

theorem handsOut_allocated {name : String} {count start : Nat}
    (hans : a.answer? (.allocate name count) = some start) :
    a.HandsOut (.allocate name count) x ↔ start ≤ x ∧ x < start + count := by
  simp only [HandsOut, hans, Option.mem_def, Option.some.injEq, exists_eq_left']

theorem Parted.allocated (h : Parted allowedAt prohibitedAt x a) {name : String}
    {count start : Nat} (hb : Allocated a name count start b) (hout : ¬ (start ≤ x ∧ x < start + count)) :
    Parted allowedAt prohibitedAt x b := by
  have hnot : x ∉ Allocation.addresses ⟨name, start, count⟩ := by
    rw [Allocation.mem_addresses]
    exact hout
  cases hb with
  | empty => exact h
  | reused _ hi hb =>
    refine (Parted.enter ?_ hnot).of_books hb
    refine h.updateScope fun s hs => ⟨fun hx => ?_, h.prohibited _ s hs⟩
    exact h.allowed _ s hs (List.mem_of_mem_tail hx)
  | fresh _ _ _ _ hb =>
    refine (Parted.enter ?_ hnot).of_books hb
    exact h.mono (Nat.le_add_right _ _) id fun i s hs => ⟨s, hs, id, id⟩

theorem Parted.putBack (h : Parted allowedAt prohibitedAt x a) {c : Allocation} (hc : c ∈ a.live) :
    Parted allowedAt prohibitedAt x (a.putBack c) := by
  have hnot : x ∉ c.addresses := fun hx => h.notLive (List.mem_flatMap.mpr ⟨c, hc, hx⟩)
  have hrest : Parted allowedAt prohibitedAt x
      { a with live := a.live.filter (·.start != c.start), inUse := a.inUse - c.count } := by
    refine h.mono (Nat.le_refl _) (fun hx => ?_) fun i s hs => ⟨s, hs, id, id⟩
    obtain ⟨d, hd, hx⟩ := List.mem_flatMap.mp hx
    exact List.mem_flatMap.mpr ⟨d, List.mem_of_mem_filter hd, hx⟩
  unfold Allocator.putBack
  simp only
  split
  · refine hrest.updateScope fun s hs => ⟨fun hx => ?_, h.prohibited _ s hs⟩
    rcases List.mem_append.mp hx with hx | hx
    · exact absurd hx hnot
    · exact h.allowed _ s hs hx
  · exact hrest

theorem Parted.startArea (h : Parted allowedAt prohibitedAt x a) :
    Parted allowedAt prohibitedAt x a.startArea := by
  have cases_scope : ∀ (i : Nat) (s : FreeScope), a.startArea.scopes[i]? = some s →
      a.scopes[i]? = some s ∨ (s.allowed = [] ∧ s.prohibited = []) := by
    intro i s hs
    unfold Allocator.startArea at hs
    rw [List.getElem?_append] at hs
    split at hs
    · exact .inl hs
    · have := List.mem_of_getElem? hs
      rw [List.mem_singleton.mp this]
      exact .inr ⟨rfl, rfl⟩
  refine ⟨h.old, h.notLive, fun i s hs hx => ?_, fun i s hs hx => ?_⟩
  · rcases cases_scope i s hs with hs | ⟨hs, -⟩
    · exact h.allowed i s hs hx
    · rw [hs] at hx; cases hx
  · rcases cases_scope i s hs with hs | ⟨-, hs⟩
    · exact h.prohibited i s hs hx
    · rw [hs] at hx; cases hx

theorem Parted.closeSegment (h : Parted allowedAt prohibitedAt x a)
    (hclose : allowedAt a.top → prohibitedAt a.top) :
    Parted allowedAt prohibitedAt x a.closeSegment := by
  refine h.updateScope fun s hs => ⟨fun hx => absurd hx List.not_mem_nil, fun hx => ?_⟩
  rcases List.mem_append.mp hx with hx | hx
  · exact hclose (h.allowed _ s hs hx)
  · exact h.prohibited _ s hs hx

theorem Parted.closeArea (h : Parted allowedAt prohibitedAt x a) (hopen : 2 ≤ a.scopes.length)
    (hend : allowedAt a.top ∨ prohibitedAt a.top → allowedAt (a.top - 1)) :
    Parted allowedAt prohibitedAt x a.closeArea := by
  let c : Allocator := { a with scopes := a.scopes.dropLast }
  have hsub : ∀ (i : Nat) (s : FreeScope), c.scopes[i]? = some s → a.scopes[i]? = some s := by
    intro i s hs
    have hs : a.scopes.dropLast[i]? = some s := hs
    rw [List.getElem?_dropLast] at hs
    split at hs
    · exact hs
    · cases hs
  have hc : Parted allowedAt prohibitedAt x c :=
    h.mono (Nat.le_refl _) id fun i s hs => ⟨s, hsub i s hs, id, id⟩
  have htop : c.top = a.top - 1 := by
    show a.scopes.dropLast.length - 1 = a.scopes.length - 1 - 1
    rw [List.length_dropLast]
  have hinner := scope_top (List.length_pos_iff.mp (by omega : 0 < a.scopes.length))
  refine hc.updateScope fun s hs => ⟨fun hx => ?_, hc.prohibited _ s hs⟩
  rcases List.mem_append.mp hx with hx | hx
  · rw [htop]
    refine hend ?_
    rcases List.mem_append.mp hx with hx | hx
    · exact .inl (h.allowed _ _ hinner hx)
    · exact .inr (h.prohibited _ _ hinner hx)
  · exact hc.allowed _ s hs hx

/-- The step: as long as the area stays open, no request moves a blocked address to where it may be
    taken from. -/
theorem parted_serve (hk : 1 ≤ k) (hclose : ∀ i, allowedAt i → prohibitedAt i)
    (hend : ∀ i, k ≤ i → allowedAt (i + 1) ∨ prohibitedAt (i + 1) → allowedAt i)
    (h : Parted allowedAt prohibitedAt x a) {r : Request} (hopen : k ≤ (a.serve r).openAreas)
    (hout : ¬ a.HandsOut r x) : Parted allowedAt prohibitedAt x (a.serve r) := by
  have hs := a.served r
  generalize a.serve r = b at hs hopen ⊢
  cases hs with
  | refused hb => exact h.of_books hb
  | allocate hans hb => exact h.allocated hb fun hx => hout ((handsOut_allocated hans).mpr hx)
  | release hb => exact h.putBack hb
  | startArea => exact h.startArea
  | nextSegment => exact h.closeSegment (hclose a.top)
  | endArea htwo =>
    have hdepth : a.closeArea.openAreas = a.top - 1 := by
      unfold openAreas top Allocator.closeArea Allocator.updateScope
      simp
    have htop : a.top - 1 + 1 = a.top := by
      unfold top
      omega
    refine h.closeArea htwo ?_
    rw [← htop]
    exact hend _ (hdepth ▸ hopen)
  | setReuse reuse => exact h.mono (Nat.le_refl _) id fun i s hs => ⟨s, hs, id, id⟩
  | reset =>
    -- a reset leaves no area open
    have : a.reset.openAreas = 0 := rfl
    omega

end

/-! ## 4. Runs -/

theorem not_handsOut
    (h : Parted (fun _ => False) prohibitedAt x a) (r : Request) : ¬ a.HandsOut r x := by
  intro hout
  cases r with
  | allocate name count =>
    obtain ⟨start, hans, hle, hlt⟩ := hout
    rcases serve_allocate a name count with ⟨⟨e, he⟩, -⟩ | ⟨start', hans', hb⟩
    · have : a.answer? (.allocate name count) = none := by
        simp [answer?, Request.perform, Functor.map, EStateM.map, he]
      rw [this] at hans
      cases hans
    · have hold := h.old
      have e : start = start' := Option.some.inj (hans.symm.trans hans')
      subst e
      cases hb with
      | empty => omega
      | reused _ hi _ =>
        have e : x = start := by omega
        subst e
        obtain ⟨s, hs, hallowed⟩ := scope_of_allowed hi
        exact h.allowed _ s hs (hallowed ▸ List.mem_cons_self)
      | fresh => omega
  | _ => exact hout

/-- The run of such steps. -/
theorem parted_serveAll (hk : 1 ≤ k) (hclose : ∀ i, allowedAt i → prohibitedAt i)
    (hend : ∀ i, k ≤ i → allowedAt (i + 1) ∨ prohibitedAt (i + 1) → allowedAt i)
    (h : Parted allowedAt prohibitedAt x a) {rs : List Request}
    (hrs : Along (fun a r => k ≤ (a.serve r).openAreas ∧ ¬ a.HandsOut r x) a rs) :
    Parted allowedAt prohibitedAt x (a.serveAll rs) := by
  induction rs generalizing a with
  | nil => exact h
  | cons r rs ih =>
    obtain ⟨⟨hopen, hout⟩, hrs⟩ := hrs
    exact ih (parted_serve hk hclose hend h hopen hout) hrs

theorem not_handsOut_along (hk : 1 ≤ k)
    (h : Parted (fun _ => False) (· = k) x a) {rs : List Request}
    (hrs : Along (fun a r => k ≤ (a.serve r).openAreas) a rs) :
    Along (fun a r => ¬ a.HandsOut r x) a rs := by
  induction rs generalizing a with
  | nil => trivial
  | cons r rs ih =>
    obtain ⟨hopen, hrs⟩ := hrs
    have hout := not_handsOut h r
    refine ⟨hout, ih (parted_serve hk (fun i hi => hi.elim) ?_ h hopen hout) hrs⟩
    rintro i hi (hf | he)
    · exact hf
    · omega

/-! ## 5. Releasing, closing, and what follows -/

theorem parted_release (h : a.Sound) {address : Nat} (hk : k ≤ a.openAreas)
    (hx : a.TakesBack address x) :
    Parted (k ≤ ·) (k ≤ ·) x (a.serve (.release address)) := by
  obtain ⟨b, hfind, hxb⟩ := hx
  rcases serve_release a address with ⟨hnone, -⟩ | ⟨c, hfind', hmem, -, hserve⟩
  · rw [hnone] at hfind
    cases hfind
  obtain rfl : b = c := Option.some.inj (hfind.symm.trans hfind')
  rw [hserve]
  have hnodup := h.nodup
  have hlive : a.liveAddresses.Perm (b.addresses ++
      (a.live.filter (·.start != b.start)).flatMap Allocation.addresses) :=
    (live_perm h.sorted hmem).flatMap_right _
  have hxlive : x ∈ a.liveAddresses := List.mem_flatMap.mpr ⟨b, hmem, hxb⟩
  obtain ⟨hnodupLive, -, happart⟩ := List.nodup_append'.mp hnodup
  have hapart := (List.nodup_append'.mp (hlive.nodup_iff.mp hnodupLive)).2.2
  have hfree : ∀ (i : Nat) (s : FreeScope), a.scopes[i]? = some s →
      x ∉ s.allowed ∧ x ∉ s.prohibited := by
    intro i s hs
    have hnot : x ∉ s.allowed ++ s.prohibited := fun hx' =>
      happart hxlive (List.mem_flatMap.mpr ⟨s, List.mem_of_getElem? hs, hx'⟩)
    exact ⟨fun hx' => hnot (List.mem_append_left _ hx'),
      fun hx' => hnot (List.mem_append_right _ hx')⟩
  have hrest : Parted (k ≤ ·) (k ≤ ·) x
      { a with live := a.live.filter (·.start != b.start), inUse := a.inUse - b.count } := by
    refine ⟨h.below x (List.mem_append_left _ hxlive), fun hx' => hapart hxb hx', ?_, ?_⟩
    · exact fun i s hs hx' => absurd hx' (hfree i s hs).1
    · exact fun i s hs hx' => absurd hx' (hfree i s hs).2
  unfold Allocator.putBack
  simp only
  split
  · exact hrest.updateScope fun s hs => ⟨fun _ => hk, fun hx' => absurd hx' (hfree _ s hs).2⟩
  · exact hrest

theorem parted_nextSegment (hk : 1 ≤ k) (hdepth : a.openAreas = k)
    (h : Parted (k ≤ ·) (k ≤ ·) x a) :
    Parted (fun _ => False) (· = k) x (a.serve .nextSegment) := by
  rcases serve_nextSegment a with ⟨hfew, -⟩ | ⟨-, hb⟩
  · unfold openAreas at hdepth
    omega
  rw [hb]
  have inner : ∀ (i : Nat) (s : FreeScope), a.closeSegment.scopes[i]? = some s → k ≤ i → i = k := by
    intro i s hs hki
    have hlt := (List.getElem?_eq_some_iff.mp hs).1
    have hlen : a.closeSegment.scopes.length = a.scopes.length := List.length_modify ..
    unfold openAreas at hdepth
    omega
  have hall := h.closeSegment (fun htop => htop)
  refine ⟨hall.old, hall.notLive, fun i s hs hx => ?_, fun i s hs hx => ?_⟩
  · -- only the scope at `k` could hold the address, and its allowed list is empty now
    have hik := inner i s hs (hall.allowed i s hs hx)
    have hs : (a.updateScope a.top fun s =>
        { s with allowed := [], prohibited := s.allowed ++ s.prohibited }).scopes[i]? = some s := hs
    rw [scopes_updateScope, if_pos (show a.top = i from hdepth.trans hik.symm)] at hs
    obtain ⟨t, -, rfl⟩ := Option.map_eq_some_iff.mp hs
    cases hx
  · exact inner i s hs (hall.prohibited i s hs hx)

/-- An address released within an area is not handed out again before that area ends, once the
    segment it was released in is closed. -/
theorem closed_segment_blocks (c : Nat) (mayExtend : Bool) (before : List Request)
    (address x k : Nat) (mid after : List Request) (hk : 1 ≤ k)
    (hdepth : k ≤ ((withCapacity c mayExtend).serveAll before).openAreas)
    (hrelease : ((withCapacity c mayExtend).serveAll before).TakesBack address x)
    (hmid : Along (fun a r => k ≤ (a.serve r).openAreas ∧ ¬ a.HandsOut r x)
      ((withCapacity c mayExtend).serveAll (before ++ [.release address])) mid)
    (hclosed : ((withCapacity c mayExtend).serveAll
      (before ++ [.release address] ++ mid)).openAreas = k)
    (hafter : Along (fun a r => k ≤ (a.serve r).openAreas)
      ((withCapacity c mayExtend).serveAll (before ++ [.release address] ++ mid ++ [.nextSegment]))
      after) :
    Along (fun a r => ¬ a.HandsOut r x)
      ((withCapacity c mayExtend).serveAll (before ++ [.release address] ++ mid ++ [.nextSegment]))
      after := by
  simp only [serveAll_append, serveAll_cons, serveAll_nil] at hmid hclosed hafter ⊢
  have hsound := sound_serveAll (sound_withCapacity c mayExtend) before
  have hreleased := parted_release hsound hdepth hrelease
  have hkept := parted_serveAll hk (fun _ hi => hi) (fun i hi _ => hi) hreleased hmid
  exact not_handsOut_along hk (parted_nextSegment hk hclosed hkept) hafter

theorem closed_segment_blocks_nested :
    Along (fun a r => ¬ a.HandsOut r 0)
      ((withCapacity 8 true).serveAll ([.startArea, .startArea, .allocate "a" 1] ++ [.release 0] ++
        [.nextSegment, .endArea] ++ [.nextSegment]))
      [.allocate "b" 1, .startArea, .allocate "c" 1, .endArea, .nextSegment, .allocate "d" 2] :=
  closed_segment_blocks 8 true [.startArea, .startArea, .allocate "a" 1] 0 0 1
    [.nextSegment, .endArea] _ (by decide) (by decide) (by decide)
    ⟨⟨by decide, id⟩, ⟨by decide, id⟩, trivial⟩ (by decide) (by decide)

end QirProfile.Allocator
