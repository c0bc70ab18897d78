import Mathlib.Algebra.BigOperators.Group.List.Basic
import Mathlib.Algebra.GroupWithZero.Nat
import Mathlib.Data.List.Basic
import Mathlib.Data.List.Flatten
import Mathlib.Data.List.Nodup
import Mathlib.Data.List.Perm.Basic
import Mathlib.Order.Bounds.Basic
import QirProfile.Proofs.Allocator.Requests

/-!
# The books of an allocator

Every address that an allocator still knows lies in one place: in one live allocation, or once in
one free list. All of the bookkeeping follows from that, so the invariant `Sound` says it of one
list, `held`: the live addresses followed by the free ones hold no address twice, and only
addresses below the extent.
-/

namespace QirProfile.Allocator

variable {a : Allocator} {b : Allocation} {i x : Nat} {rest : List Nat} {l : List Allocation}

/-! ## 1. Where addresses are -/

/-- The addresses of all live allocations. -/
def liveAddresses (a : Allocator) : List Nat :=
  a.live.flatMap Allocation.addresses

/-- The free addresses of all scopes. -/
def freeAddresses (a : Allocator) : List Nat :=
  a.scopes.flatMap fun s => s.allowed ++ s.prohibited

/-- Every address that is live or free. -/
def held (a : Allocator) : List Nat :=
  a.liveAddresses ++ a.freeAddresses

/-- **The invariant.** -/
structure Sound (a : Allocator) : Prop where
  rooted : a.scopes ≠ []
  nodup : a.held.Nodup
  below : ∀ x ∈ a.held, x < a.nextId
  nonempty : ∀ b ∈ a.live, 0 < b.count
  sorted : a.live.Pairwise fun b c => b.start < c.start
  inUse_eq : a.inUse = (a.live.map (·.count)).sum
  extent_le : a.nextId ≤ a.capacity
  extent_word : a.nextId < span 64

theorem freeAddresses_books (a : Allocator) : a.books.freeAddresses = a.freeAddresses := by
  unfold freeAddresses books
  rw [List.flatMap_map]
  rfl

theorem sound_books : a.books.Sound ↔ a.Sound := by
  have hheld : a.books.held = a.held := by
    unfold held
    rw [freeAddresses_books]
    rfl
  constructor
  · intro h
    refine ⟨?_, hheld ▸ h.nodup, fun x hx => h.below x (hheld ▸ hx), h.nonempty, h.sorted,
      h.inUse_eq, h.extent_le, h.extent_word⟩
    intro e
    apply h.rooted
    show a.scopes.map bare = []
    rw [e]
    rfl
  · intro h
    refine ⟨?_, hheld ▸ h.nodup, fun x hx => h.below x (hheld ▸ hx), h.nonempty, h.sorted,
      h.inUse_eq, h.extent_le, h.extent_word⟩
    intro e
    exact h.rooted (List.map_eq_nil_iff.mp e)

theorem Sound.of_books {b : Allocator} (h : a.Sound) (e : b.books = a.books) : b.Sound :=
  sound_books.mp (e ▸ sound_books.mpr h)

/-! ## 2. Lists that change in one place -/

theorem free_updateScope {s : FreeScope} (h : a.scopes[i]? = some s)
    (f : FreeScope → FreeScope) :
    ∃ rest, a.freeAddresses.Perm (s.allowed ++ s.prohibited ++ rest) ∧
      (a.updateScope i f).freeAddresses.Perm ((f s).allowed ++ (f s).prohibited ++ rest) := by
  obtain ⟨hi, hs⟩ := List.getElem?_eq_some_iff.mp h
  obtain ⟨pre, t, post, hl, hlen, hm⟩ := List.exists_of_modify f hi
  have ht : t = s := by
    rw [hl] at h
    simpa [← hlen] using h
  subst ht
  let flat := fun l : List FreeScope => l.flatMap fun s => s.allowed ++ s.prohibited
  refine ⟨flat pre ++ flat post, ?_, ?_⟩
  · unfold freeAddresses
    rw [hl, List.flatMap_append, List.flatMap_cons]
    exact List.perm_append_comm_assoc _ _ _
  · unfold freeAddresses updateScope
    rw [hm, List.flatMap_append, List.flatMap_cons]
    exact List.perm_append_comm_assoc _ _ _

theorem free_pop (h : (a.scope i).allowed = x :: rest) :
    a.freeAddresses.Perm (x :: (a.pop i).freeAddresses) := by
  obtain ⟨s, hs, hx⟩ := scope_of_allowed h
  obtain ⟨others, h₁, h₂⟩ :=
    free_updateScope hs fun s => { s with allowed := s.allowed.tail }
  refine h₁.trans ?_
  rw [hx]
  simp only [hx, List.tail_cons] at h₂
  exact (h₂.cons x).symm

theorem insertLive_perm (b : Allocation) (l : List Allocation) : (insertLive b l).Perm (b :: l) := by
  induction l with
  | nil => exact List.Perm.refl _
  | cons c rest ih =>
    unfold insertLive
    split
    · exact List.Perm.refl _
    · exact (ih.cons c).trans (List.Perm.swap b c rest)

theorem insertLive_sorted
    (hl : l.Pairwise fun b c => b.start < c.start) (hb : ∀ c ∈ l, c.start ≠ b.start) :
    (insertLive b l).Pairwise fun b c => b.start < c.start := by
  induction l with
  | nil => exact List.pairwise_singleton _ _
  | cons c rest ih =>
    obtain ⟨hc, hrest⟩ := List.pairwise_cons.mp hl
    unfold insertLive
    split
    · rename_i hlt
      refine List.pairwise_cons.mpr ⟨fun d hd => ?_, hl⟩
      rcases List.mem_cons.mp hd with rfl | hd
      · exact hlt
      · exact Nat.lt_trans hlt (hc d hd)
    · rename_i hlt
      refine List.pairwise_cons.mpr
        ⟨fun d hd => ?_, ih hrest fun d hd => hb d (List.mem_cons_of_mem c hd)⟩
      rcases List.mem_cons.mp ((insertLive_perm b rest).mem_iff.mp hd) with rfl | hd
      · have := hb c List.mem_cons_self
        omega
      · exact hc d hd

theorem scope_top (h : a.scopes ≠ []) : a.scopes[a.top]? = some (a.scope a.top) := by
  have hlt : a.top < a.scopes.length := by
    have := List.length_pos_iff.mpr h
    unfold top
    omega
  unfold scope
  rw [List.getD_eq_getElem?_getD, List.getElem?_eq_getElem hlt]
  rfl

/-! ## 3. One request keeps the invariant -/

theorem held_enter (a : Allocator) (b : Allocation) :
    (a.enter b).held.Perm (b.addresses ++ a.held) := by
  unfold held
  rw [← List.append_assoc]
  refine List.Perm.append_right _ ?_
  show ((insertLive b a.live).flatMap Allocation.addresses).Perm _
  exact (insertLive_perm b a.live).flatMap_right _

theorem start_mem_held (hpos : ∀ b ∈ a.live, 0 < b.count)
    (hb : b ∈ a.live) : b.start ∈ a.held := by
  refine List.mem_append_left _ (List.mem_flatMap.mpr ⟨b, hb, ?_⟩)
  have := hpos b hb
  rw [Allocation.mem_addresses]
  unfold Allocation.stop
  omega

theorem Sound.enter {a : Allocator} (h : a.Sound) {b : Allocation} (hpos : 0 < b.count)
    (hnew : ∀ x ∈ b.addresses, x < a.nextId ∧ x ∉ a.held) : (a.enter b).Sound := by
  have hstart : b.start ∈ b.addresses := by
    rw [Allocation.mem_addresses]
    unfold Allocation.stop
    omega
  refine ⟨h.rooted, ?_, fun x hx => ?_, fun c hc => ?_, ?_, ?_, h.extent_le, h.extent_word⟩
  · refine (held_enter a b).nodup_iff.mpr (List.nodup_append'.mpr ⟨?_, h.nodup, ?_⟩)
    · exact List.nodup_range'
    · exact fun x hx hy => (hnew x hx).2 hy
  · rcases List.mem_append.mp ((held_enter a b).mem_iff.mp hx) with hx | hx
    · exact (hnew x hx).1
    · exact h.below x hx
  · rcases List.mem_cons.mp ((insertLive_perm b a.live).mem_iff.mp hc) with rfl | hc
    · exact hpos
    · exact h.nonempty c hc
  · refine insertLive_sorted h.sorted fun c hc e => ?_
    exact (hnew _ hstart).2 (e ▸ start_mem_held h.nonempty hc)
  · show a.inUse + b.count = ((insertLive b a.live).map (·.count)).sum
    rw [((insertLive_perm b a.live).map _).sum_eq, h.inUse_eq]
    simp [Nat.add_comm]

theorem held_pop (hi : (a.scope i).allowed = x :: rest) : a.held.Perm (x :: (a.pop i).held) :=
  (List.Perm.append_left _ (free_pop hi)).trans List.perm_middle

theorem Sound.pop (h : a.Sound)
    (hi : (a.scope i).allowed = x :: rest) :
    (a.pop i).Sound ∧ x < a.nextId ∧ x ∉ (a.pop i).held := by
  have hheld := held_pop hi
  have hnodup := List.nodup_cons.mp (hheld.nodup_iff.mp h.nodup)
  refine ⟨⟨?_, hnodup.2, fun y hy => ?_, h.nonempty, h.sorted, h.inUse_eq, h.extent_le,
    h.extent_word⟩, ?_, hnodup.1⟩
  · intro e
    exact h.rooted (List.modify_eq_nil_iff.mp e)
  · exact h.below y (hheld.mem_iff.mpr (List.mem_cons_of_mem x hy))
  · exact h.below x (hheld.mem_iff.mpr List.mem_cons_self)

theorem Sound.grow (h : a.Sound) {count : Nat} (hend : a.nextId + count < span 64) :
    (a.grow count).Sound := by
  refine ⟨h.rooted, h.nodup, fun x hx => ?_, h.nonempty, h.sorted, h.inUse_eq, ?_, hend⟩
  · have := h.below x hx
    show x < a.nextId + count
    omega
  · show a.nextId + count ≤ if a.capacity < a.nextId + count then
        max (a.nextId + count) (min (2 * a.capacity) (span 64 - 1)) else a.capacity
    split
    · exact Nat.le_max_left _ _
    · omega

theorem sound_allocated {b : Allocator} {name : String} {count start : Nat} (h : a.Sound)
    (hb : Allocated a name count start b) : b.Sound := by
  cases hb with
  | empty => exact h
  | reused _ hi hb =>
    obtain ⟨hpop, hlt, hnot⟩ := h.pop hi
    refine Sound.of_books (hpop.enter Nat.one_pos fun y hy => ?_) hb
    have e : y = start := by
      rw [Allocation.mem_addresses] at hy
      unfold Allocation.stop at hy
      simp only at hy
      omega
    subst e
    exact ⟨hlt, hnot⟩
  | fresh hpos _ hend _ hb =>
    refine Sound.of_books ((h.grow hend).enter hpos fun y hy => ?_) hb
    rw [Allocation.mem_addresses] at hy
    refine ⟨hy.2, fun hy' => ?_⟩
    have := h.below y hy'
    exact absurd hy.1 (Nat.not_le_of_lt this)

theorem live_perm (hl : l.Pairwise fun b c => b.start < c.start)
    (hb : b ∈ l) : l.Perm (b :: l.filter (·.start != b.start)) := by
  induction l with
  | nil => cases hb
  | cons c rest ih =>
    obtain ⟨hc, hrest⟩ := List.pairwise_cons.mp hl
    rcases List.mem_cons.mp hb with rfl | hb
    · have hne : rest.filter (·.start != b.start) = rest := by
        rw [List.filter_eq_self]
        intro d hd
        have := hc d hd
        simp only [bne_iff_ne, ne_eq]
        omega
      simp [hne]
    · have hne : c.start ≠ b.start := Nat.ne_of_lt (hc b hb)
      have e : (c :: rest).filter (·.start != b.start) = c :: rest.filter (·.start != b.start) := by
        simp [hne]
      rw [e]
      exact ((ih hrest hb).cons c).trans (List.Perm.swap b c _)

theorem inUse_eq_add (h : a.Sound) (hb : b ∈ a.live) :
    a.inUse = b.count + ((a.live.filter (·.start != b.start)).map (·.count)).sum := by
  rw [h.inUse_eq, ((live_perm h.sorted hb).map _).sum_eq]
  simp

theorem held_live (h : a.Sound) (hb : b ∈ a.live) :
    a.held.Perm (b.addresses ++
      ((a.live.filter (·.start != b.start)).flatMap Allocation.addresses ++ a.freeAddresses)) := by
  unfold held
  rw [← List.append_assoc]
  exact List.Perm.append_right _ ((live_perm h.sorted hb).flatMap_right _)

theorem held_putBack (h : a.Sound) (hb : b ∈ a.live)
    (hr : a.reuse = true) : (a.putBack b).held.Perm a.held := by
  let c : Allocator :=
    { a with live := a.live.filter (·.start != b.start), inUse := a.inUse - b.count }
  obtain ⟨others, h₁, h₂⟩ := free_updateScope (a := c) (scope_top h.rooted)
    fun s => { s with allowed := b.addresses ++ s.allowed }
  have hfree : (c.updateScope a.top
      fun s => { s with allowed := b.addresses ++ s.allowed }).freeAddresses.Perm
        (b.addresses ++ c.freeAddresses) := by
    refine h₂.trans ?_
    simp only [List.append_assoc]
    refine List.Perm.append_left _ ?_
    simpa only [List.append_assoc] using h₁.symm
  unfold Allocator.putBack
  simp only [hr, if_true]
  refine (List.Perm.append_left _ hfree).trans (List.Perm.trans ?_ (held_live h hb).symm)
  exact List.perm_append_comm_assoc _ _ _

theorem Sound.putBack (h : a.Sound) (hb : b ∈ a.live) :
    (a.putBack b).Sound := by
  have hsum := inUse_eq_add h hb
  have hheld := held_live h hb
  have hnodup := List.nodup_append'.mp (hheld.nodup_iff.mp h.nodup)
  have hc : Sound { a with
      live := a.live.filter (·.start != b.start), inUse := a.inUse - b.count } := by
    refine ⟨h.rooted, hnodup.2.1, fun x hx => ?_, fun d hd => ?_, h.sorted.filter _, ?_,
      h.extent_le, h.extent_word⟩
    · exact h.below x (hheld.mem_iff.mpr (List.mem_append_right _ hx))
    · exact h.nonempty d (List.mem_of_mem_filter hd)
    · show a.inUse - b.count = ((a.live.filter (·.start != b.start)).map (·.count)).sum
      omega
  by_cases hr : a.reuse = true
  · have hnew := held_putBack h hb hr
    unfold Allocator.putBack at hnew ⊢
    simp only [hr, if_true] at hnew ⊢
    refine ⟨?_, hnew.nodup_iff.mpr h.nodup, fun x hx => h.below x (hnew.mem_iff.mp hx), hc.nonempty,
      hc.sorted, hc.inUse_eq, h.extent_le, h.extent_word⟩
    intro e
    exact h.rooted (List.modify_eq_nil_iff.mp e)
  · unfold Allocator.putBack
    dsimp only
    rw [if_neg hr]
    exact hc

theorem Sound.of_scopes {b : Allocator} (h : a.Sound) (hs : b.scopes ≠ [])
    (hfree : b.freeAddresses.Perm a.freeAddresses)
    (hrest : b = { a with scopes := b.scopes, reuse := b.reuse }) : b.Sound := by
  have hlive : b.live = a.live := by rw [hrest]
  have hheld : b.held.Perm a.held := by
    unfold held liveAddresses
    rw [hlive]
    exact List.Perm.append_left _ hfree
  have hnext : b.nextId = a.nextId := by rw [hrest]
  have huse : b.inUse = a.inUse := by rw [hrest]
  have hcap : b.capacity = a.capacity := by rw [hrest]
  refine ⟨hs, hheld.nodup_iff.mpr h.nodup, fun x hx => ?_, ?_, ?_, ?_, ?_, ?_⟩
  · rw [hnext]
    exact h.below x (hheld.mem_iff.mp hx)
  · rw [hlive]
    exact h.nonempty
  · rw [hlive]
    exact h.sorted
  · rw [huse, hlive]
    exact h.inUse_eq
  · rw [hnext, hcap]
    exact h.extent_le
  · rw [hnext]
    exact h.extent_word

theorem free_startArea (a : Allocator) : a.startArea.freeAddresses = a.freeAddresses := by
  unfold freeAddresses Allocator.startArea
  simp

theorem Sound.startArea (h : a.Sound) : a.startArea.Sound := by
  refine h.of_scopes ?_ ?_ rfl
  · simp [Allocator.startArea]
  · rw [free_startArea]

theorem free_closeSegment (h : a.scopes ≠ []) :
    a.closeSegment.freeAddresses.Perm a.freeAddresses := by
  obtain ⟨others, h₁, h₂⟩ := free_updateScope (scope_top h)
    fun s => { s with allowed := [], prohibited := s.allowed ++ s.prohibited }
  refine h₂.trans (List.Perm.trans ?_ h₁.symm)
  simp

theorem Sound.closeSegment (h : a.Sound) : a.closeSegment.Sound := by
  refine h.of_scopes ?_ (free_closeSegment h.rooted) rfl
  intro e
  exact h.rooted (List.modify_eq_nil_iff.mp e)

theorem scopes_eq_of_open (h : 2 ≤ a.scopes.length) :
    a.scopes.dropLast ≠ [] ∧ a.scopes = a.scopes.dropLast ++ [a.scope a.top] := by
  have hne : a.scopes ≠ [] := List.length_pos_iff.mp (by omega)
  refine ⟨List.length_pos_iff.mp (by rw [List.length_dropLast]; omega), ?_⟩
  have hlast : a.scopes.getLast hne = a.scope a.top := by
    have := scope_top hne
    rw [List.getLast_eq_getElem]
    obtain ⟨_, e⟩ := List.getElem?_eq_some_iff.mp this
    exact e
  rw [← hlast]
  exact (List.dropLast_append_getLast hne).symm

theorem free_closeArea (hopen : 2 ≤ a.scopes.length) :
    a.closeArea.freeAddresses.Perm a.freeAddresses := by
  obtain ⟨hne, hscopes⟩ := scopes_eq_of_open hopen
  let c : Allocator := { a with scopes := a.scopes.dropLast }
  have hc : c.scopes ≠ [] := hne
  obtain ⟨others, h₁, h₂⟩ := free_updateScope (a := c) (scope_top hc) fun s =>
    { s with
      outward := min (a.scope a.top).outward s.outward
      allowed := (a.scope a.top).allowed ++ (a.scope a.top).prohibited ++ s.allowed }
  refine h₂.trans ?_
  have hfree : a.freeAddresses =
      c.freeAddresses ++ ((a.scope a.top).allowed ++ (a.scope a.top).prohibited) := by
    unfold freeAddresses
    conv_lhs => rw [hscopes]
    simp [c]
  rw [hfree]
  refine List.Perm.trans ?_ List.perm_append_comm
  simp only [List.append_assoc]
  refine List.Perm.append_left _ (List.Perm.append_left _ ?_)
  simpa only [List.append_assoc] using h₁.symm

theorem Sound.closeArea (h : a.Sound) (hopen : 2 ≤ a.scopes.length) :
    a.closeArea.Sound := by
  refine h.of_scopes ?_ (free_closeArea hopen) rfl
  intro e
  exact (scopes_eq_of_open hopen).1 (List.modify_eq_nil_iff.mp e)

theorem sound_withCapacity (c : Nat) (mayExtend : Bool) : (withCapacity c mayExtend).Sound := by
  refine ⟨List.cons_ne_nil _ _, List.nodup_nil, ?_, ?_, List.Pairwise.nil, rfl, Nat.zero_le c, ?_⟩
  · intro x hx
    cases hx
  · intro b hb
    cases hb
  · exact Nat.pow_pos Nat.two_pos

/-- One request, carried out or refused, keeps the books sound. -/
theorem sound_serve (h : a.Sound) (r : Request) : (a.serve r).Sound := by
  have hs := a.served r
  generalize a.serve r = b at hs ⊢
  cases hs with
  | refused hb => exact h.of_books hb
  | allocate _ hb => exact sound_allocated h hb
  | release hb => exact h.putBack hb
  | startArea => exact h.startArea
  | nextSegment => exact h.closeSegment
  | endArea hopen => exact h.closeArea hopen
  | setReuse reuse => exact h.of_scopes h.rooted (List.Perm.refl _) rfl
  | reset =>
    exact (sound_withCapacity a.initialCapacity a.mayExtend).of_scopes (List.cons_ne_nil _ _)
      (List.Perm.refl _) rfl

/-- A run of requests keeps the books sound. -/
theorem sound_serveAll (h : a.Sound) (rs : List Request) : (a.serveAll rs).Sound := by
  induction rs generalizing a with
  | nil => exact h
  | cons r rs ih => exact ih (sound_serve h r)

/-! ## 4. The greatest number in use -/

/-- The numbers of addresses in use since the start or the last reset, the latest first. `since` are
    those up to the state `a`. -/
def usage (a : Allocator) (since : List Nat) : List Request → List Nat
  | [] => since
  | r :: rs =>
    let b := a.serve r
    b.usage (if r = .reset then [b.inUse] else b.inUse :: since) rs

theorem maxUsed_serve (h : a.inUse ≤ a.maxUsed) {r : Request} (hr : r ≠ .reset) :
    (a.serve r).maxUsed = max a.maxUsed (a.serve r).inUse := by
  have same : ∀ b : Allocator, b.maxUsed = a.maxUsed → b.inUse ≤ a.inUse →
      b.maxUsed = max a.maxUsed b.inUse := by
    intro b h₁ h₂
    omega
  have entered : ∀ (b : Allocator) (n : Nat), b.books.maxUsed = max a.maxUsed (a.inUse + n) →
      b.books.inUse = a.inUse + n → b.maxUsed = max a.maxUsed b.inUse := by
    intro b n h₁ h₂
    exact h₁.trans (by rw [← h₂]; rfl)
  have hs := a.served r
  generalize a.serve r = b at hs ⊢
  cases hs with
  | refused hb =>
    refine same b (show b.books.maxUsed = a.books.maxUsed by rw [hb]) (Nat.le_of_eq ?_)
    exact show b.books.inUse = a.books.inUse by rw [hb]
  | allocate _ hb =>
    cases hb with
    | empty => exact same a rfl (Nat.le_refl _)
    | reused _ _ hb => exact entered b 1 (by rw [hb]; rfl) (by rw [hb]; rfl)
    | fresh _ _ _ _ hb => exact entered b _ (by rw [hb]; rfl) (by rw [hb]; rfl)
  | release hb =>
    unfold Allocator.putBack
    split <;> exact same _ rfl (Nat.sub_le _ _)
  | reset => exact absurd rfl hr
  | _ => exact same _ rfl (Nat.le_refl _)

theorem isGreatest_usage {since : List Nat} (hin : a.inUse ∈ since)
    (h : IsGreatest {n | n ∈ since} a.maxUsed) (rs : List Request) :
    IsGreatest {n | n ∈ a.usage since rs} (a.serveAll rs).maxUsed := by
  induction rs generalizing a since with
  | nil => exact h
  | cons r rs ih =>
    by_cases hr : r = .reset
    · subst hr
      refine ih (List.mem_singleton_self _) ⟨List.mem_singleton_self _, fun n hn => ?_⟩
      exact Nat.le_of_eq (List.mem_singleton.mp hn)
    · have hmax := maxUsed_serve (h.2 hin) hr
      simp only [usage, hr, if_false, serveAll_cons]
      refine ih List.mem_cons_self ⟨?_, fun n hn => ?_⟩
      · rw [hmax]
        rcases Nat.le_total a.maxUsed (a.serve r).inUse with hle | hle
        · rw [Nat.max_eq_right hle]
          exact List.mem_cons_self
        · rw [Nat.max_eq_left hle]
          exact List.mem_cons_of_mem _ h.1
      · rw [hmax]
        rcases List.mem_cons.mp hn with rfl | hn
        · exact Nat.le_max_right _ _
        · exact Nat.le_trans (h.2 hn) (Nat.le_max_left _ _)

/-! ## 5. The capacity -/

/-- The capacity of an allocator that was made with capacity `c` and may extend or not. -/
structure CapacityOf (c : Nat) (mayExtend : Bool) (a : Allocator) : Prop where
  initial : a.initialCapacity = c
  may : a.mayExtend = mayExtend
  fixed : mayExtend = false → a.capacity = c

theorem capacityOf_serve {c : Nat} {mayExtend : Bool}
    (h : CapacityOf c mayExtend a) (r : Request) : CapacityOf c mayExtend (a.serve r) := by
  have same : ∀ b : Allocator, b.initialCapacity = a.initialCapacity → b.mayExtend = a.mayExtend →
      b.capacity = a.capacity → CapacityOf c mayExtend b := by
    intro b h₁ h₂ h₃
    exact ⟨h₁.trans h.initial, h₂.trans h.may, fun hm => h₃.trans (h.fixed hm)⟩
  have books : ∀ b s : Allocator, b.books = s.books → CapacityOf c mayExtend s →
      CapacityOf c mayExtend b := by
    intro b s hb hs
    exact ⟨show b.books.initialCapacity = c by rw [hb]; exact hs.initial,
      show b.books.mayExtend = mayExtend by rw [hb]; exact hs.may,
      fun hm => show b.books.capacity = c by rw [hb]; exact hs.fixed hm⟩
  have hs := a.served r
  generalize a.serve r = b at hs ⊢
  cases hs with
  | refused hb => exact books b a hb h
  | allocate _ hb =>
    cases hb with
    | empty => exact h
    | reused _ _ hb => exact books _ _ hb (same _ rfl rfl rfl)
    | fresh _ _ _ hfix hb =>
      refine books _ _ hb ⟨h.initial, h.may, fun hm => ?_⟩
      have hroom := hfix (h.may.trans hm)
      show (if a.capacity < a.nextId + _ then _ else a.capacity) = c
      rw [if_neg (Nat.not_lt.mpr hroom)]
      exact h.fixed hm
  | release hb =>
    unfold Allocator.putBack
    split <;> exact same _ rfl rfl rfl
  | reset => exact ⟨h.initial, h.may, fun _ => h.initial⟩
  | _ => exact same _ rfl rfl rfl

theorem capacityOf_serveAll {c : Nat} {mayExtend : Bool}
    (h : CapacityOf c mayExtend a) (rs : List Request) : CapacityOf c mayExtend (a.serveAll rs) := by
  induction rs generalizing a with
  | nil => exact h
  | cons r rs ih => exact ih (capacityOf_serve h r)

/-! ## 6. Arithmetic on words -/

/-- The sums of words that a request works out: the new number in use, and the end of the new
    allocation. Fresh addresses end at the same sum. -/
def additions (a : Allocator) : Request → List (Nat × Nat)
  | .allocate name count =>
    match a.answer? (.allocate name count) with
    | some start => if count = 0 then [] else [(a.inUse, count), (start, count)]
    | none => []
  | _ => []

/-- The differences of words that a request works out: the index of the innermost scope, and the
    number in use behind a release. -/
def subtractions (a : Allocator) : Request → List (Nat × Nat)
  | .release address =>
    (a.scopes.length, 1) ::
      (a.live.find? (·.start == address)).toList.map fun b => (a.inUse, b.count)
  | .endArea => if 2 ≤ a.scopes.length then [(a.scopes.dropLast.length, 1)] else []
  | .allocate _ _ | .startArea | .nextSegment => [(a.scopes.length, 1)]
  | .setReuse _ | .reset => []

theorem additions_fit (h : a.Sound) (r : Request) {s : Nat × Nat}
    (hs : s ∈ a.additions r) : s.1 + s.2 < span 64 := by
  cases r with
  | allocate name count =>
    simp only [additions] at hs
    rcases serve_allocate a name count with ⟨⟨e, he⟩, -⟩ | ⟨start, hans, hb⟩
    · have : a.answer? (.allocate name count) = none := by
        simp [answer?, Request.perform, Functor.map, EStateM.map, he]
      rw [this] at hs
      cases hs
    · rw [hans] at hs
      cases hb with
      | empty => cases hs
      | reused hword hi _ =>
        have hx : start < a.nextId := (h.pop hi).2.1
        have hext := h.extent_word
        simp only [Nat.one_ne_zero, if_false, List.mem_cons, List.not_mem_nil, or_false] at hs
        rcases hs with rfl | rfl
        · exact hword
        · show start + 1 < span 64
          omega
      | fresh hpos hword hend _ _ =>
        simp only [Nat.ne_of_gt hpos, if_false, List.mem_cons, List.not_mem_nil, or_false] at hs
        rcases hs with rfl | rfl
        · exact hword
        · exact hend
  | _ => cases hs

theorem subtractions_fit (h : a.Sound) (r : Request) {s : Nat × Nat}
    (hs : s ∈ a.subtractions r) : s.2 ≤ s.1 := by
  have hlen : 1 ≤ a.scopes.length := List.length_pos_iff.mpr h.rooted
  have hone : s ∈ [(a.scopes.length, 1)] → s.2 ≤ s.1 := by
    intro hs
    rw [List.mem_singleton.mp hs]
    exact hlen
  cases r with
  | release address =>
    rcases List.mem_cons.mp hs with rfl | hs
    · exact hlen
    · obtain ⟨b, hb, rfl⟩ := List.mem_map.mp hs
      have hmem := List.mem_of_find?_eq_some (Option.mem_toList.mp hb)
      show b.count ≤ a.inUse
      rw [inUse_eq_add h hmem]
      exact Nat.le_add_right _ _
  | endArea =>
    simp only [subtractions] at hs
    split at hs
    · rename_i hopen
      rw [List.mem_singleton.mp hs]
      simp only [List.length_dropLast]
      omega
    · cases hs
  | allocate name count => exact hone hs
  | startArea => exact hone hs
  | nextSegment => exact hone hs
  | setReuse reuse => cases hs
  | reset => cases hs

/-! ## 7. Every reachable state -/

theorem disjoint_of_nodup (h : (l.flatMap Allocation.addresses).Nodup) :
    l.Pairwise fun b c => b.addresses.Disjoint c.addresses :=
  (List.nodup_flatMap.mp h).2

/-- What holds of the state `a` behind the requests `rs`, served from the start on. -/
structure InOrder (c : Nat) (mayExtend : Bool) (rs : List Request) (a : Allocator) : Prop where
  live_nonempty : ∀ b ∈ a.live, 0 < b.count
  live_keyed : ∀ b ∈ a.live, a.live.find? (·.start == b.start) = some b
  live_disjoint : a.live.Pairwise fun b c => b.addresses.Disjoint c.addresses
  live_below : ∀ b ∈ a.live, b.stop ≤ a.nextId
  free_distinct : a.freeAddresses.Nodup
  free_below : ∀ x ∈ a.freeAddresses, x < a.nextId
  free_outside : ∀ x ∈ a.freeAddresses, ∀ b ∈ a.live, x ∉ b.addresses
  inUse_sum : a.inUse = (a.live.map (·.count)).sum
  maxUsed_greatest : IsGreatest {n | n ∈ (withCapacity c mayExtend).usage [0] rs} a.maxUsed
  extent_le : a.nextId ≤ a.capacity
  capacity_fixed : mayExtend = false → a.capacity = c
  additions_fit : ∀ r, ∀ s ∈ a.additions r, s.1 + s.2 < span 64
  subtractions_fit : ∀ r, ∀ s ∈ a.subtractions r, s.2 ≤ s.1

theorem find_live (hl : l.Pairwise fun b c => b.start < c.start)
    (hb : b ∈ l) : l.find? (·.start == b.start) = some b := by
  induction l with
  | nil => cases hb
  | cons c rest ih =>
    obtain ⟨hc, hrest⟩ := List.pairwise_cons.mp hl
    rcases List.mem_cons.mp hb with rfl | hb
    · simp
    · have hne : (c.start == b.start) = false := by
        simpa using Nat.ne_of_lt (hc b hb)
      rw [List.find?_cons, hne]
      exact ih hrest hb

/-- The books are in order behind all requests, whatever the capacity and whether it may grow. -/
theorem serveAll_inOrder (c : Nat) (mayExtend : Bool) (rs : List Request) :
    InOrder c mayExtend rs ((withCapacity c mayExtend).serveAll rs) := by
  have h := sound_serveAll (sound_withCapacity c mayExtend) rs
  have hcap : CapacityOf c mayExtend ((withCapacity c mayExtend).serveAll rs) :=
    capacityOf_serveAll (a := withCapacity c mayExtend) ⟨rfl, rfl, fun _ => rfl⟩ rs
  have hmax := isGreatest_usage (a := withCapacity c mayExtend) (List.mem_singleton_self 0)
    ⟨List.mem_singleton_self 0, fun n hn => Nat.le_of_eq (List.mem_singleton.mp hn)⟩ rs
  generalize (withCapacity c mayExtend).serveAll rs = a at h hcap hmax
  obtain ⟨hlive, hfree, hapart⟩ := List.nodup_append'.mp h.nodup
  exact
    { live_nonempty := h.nonempty
      live_keyed := fun b hb => find_live h.sorted hb
      live_disjoint := disjoint_of_nodup hlive
      live_below := fun b hb => by
        have hpos := h.nonempty b hb
        have hlast : b.stop - 1 ∈ a.held := by
          refine List.mem_append_left _ (List.mem_flatMap.mpr ⟨b, hb, ?_⟩)
          rw [Allocation.mem_addresses]
          unfold Allocation.stop
          omega
        have := h.below _ hlast
        omega
      free_distinct := hfree
      free_below := fun x hx => h.below x (List.mem_append_right _ hx)
      free_outside := fun x hx b hb hxb => hapart (List.mem_flatMap.mpr ⟨b, hb, hxb⟩) hx
      inUse_sum := h.inUse_eq
      maxUsed_greatest := hmax
      extent_le := h.extent_le
      capacity_fixed := hcap.fixed
      additions_fit := fun r _ hs => additions_fit h r hs
      subtractions_fit := fun r _ hs => subtractions_fit h r hs }

end QirProfile.Allocator
