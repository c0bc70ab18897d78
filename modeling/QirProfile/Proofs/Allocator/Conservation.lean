import Mathlib.Data.List.Range
import QirProfile.Proofs.Allocator.Books
import QirProfile.Proofs.Allocator.Search

/-!
# No address is lost

As long as released addresses are handed out again, the addresses below the extent are those that
are live or free, each of them in one place. A fresh address is taken only when the search finds no
free one, and the search finds what is free unless a closed segment blocks it. So a run that asks for
one address at a time and closes no segment takes as many addresses as it ever uses at the same time.
-/

namespace QirProfile.Allocator

variable {a b : Allocator}

/-! ## 1. Everything below the extent is held -/

/-- What is held is everything below the extent, and each address once. -/
def Whole (a : Allocator) : Prop := a.held.Perm (List.range a.nextId)

theorem Whole.count_held (h : a.Whole) {x : Nat} (hx : x < a.nextId) : a.held.count x = 1 := by
  rw [h.count_eq]
  exact List.count_eq_one_of_mem List.nodup_range (List.mem_range.mpr hx)

theorem Whole.of_perm (h : a.Whole) (hheld : b.held.Perm a.held) (hnext : b.nextId = a.nextId) :
    b.Whole := by
  unfold Whole
  rw [hnext]
  exact hheld.trans h

theorem held_books (e : b.books = a.books) : b.held = a.held := by
  have hlive : b.live = a.live := show b.books.live = a.books.live by rw [e]
  have hfree : b.freeAddresses = a.freeAddresses := by
    rw [← freeAddresses_books b, ← freeAddresses_books a, e]
  unfold held liveAddresses
  rw [hlive, hfree]

theorem Whole.allocated (h : a.Whole) {name : String} {count start : Nat}
    (hb : Allocated a name count start b) : b.Whole := by
  cases hb with
  | empty => exact h
  | reused _ hi hb =>
    refine h.of_perm ?_ (show b.books.nextId = a.nextId by rw [hb]; rfl)
    rw [held_books hb]
    exact (held_enter _ _).trans (held_pop hi).symm
  | fresh _ _ _ _ hb =>
    have hnext : b.nextId = a.nextId + count := show b.books.nextId = _ by rw [hb]; rfl
    unfold Whole
    rw [held_books hb, hnext, List.range_add, ← List.range'_eq_map_range]
    refine (held_enter _ _).trans (List.perm_append_comm.trans ?_)
    exact List.Perm.append_right _ h

theorem reuse_serve (h : a.reuse = true) {r : Request} (hr : r ≠ .setReuse false) :
    (a.serve r).reuse = true := by
  have hs := a.served r
  generalize a.serve r = b at hs ⊢
  cases hs with
  | refused hb => exact (show b.books.reuse = a.books.reuse by rw [hb]).trans h
  | allocate _ hb =>
    cases hb with
    | empty => exact h
    | reused _ _ hb => exact show b.books.reuse = true by rw [hb]; exact h
    | fresh _ _ _ _ hb => exact show b.books.reuse = true by rw [hb]; exact h
  | release hb =>
    unfold putBack
    dsimp only
    split <;> exact h
  | setReuse reuse =>
    cases reuse with
    | true => rfl
    | false => exact absurd rfl hr
  | _ => exact h

theorem whole_serve (h : a.Sound) (hw : a.Whole) (hreuse : a.reuse = true) (r : Request) :
    (a.serve r).Whole := by
  have hs := a.served r
  generalize a.serve r = b at hs ⊢
  cases hs with
  | refused hb =>
    exact hw.of_perm (.of_eq (held_books hb)) (show b.books.nextId = a.books.nextId by rw [hb])
  | allocate _ hb => exact hw.allocated hb
  | release hb =>
    refine hw.of_perm (held_putBack h hb hreuse) ?_
    unfold putBack
    simp only [hreuse, if_true]
    rfl
  | startArea => exact hw.of_perm (List.Perm.append_left _ (.of_eq (free_startArea a))) rfl
  | nextSegment => exact hw.of_perm (List.Perm.append_left _ (free_closeSegment h.rooted)) rfl
  | endArea hopen => exact hw.of_perm (List.Perm.append_left _ (free_closeArea hopen)) rfl
  | setReuse reuse => exact hw.of_perm (.refl _) rfl
  | reset => exact List.Perm.refl _

/-! ## 2. Nothing is wasted -/

/-- A request that takes at most one address at a time and closes no segment. -/
def Request.isModest : Request → Bool
  | .allocate _ count => count ≤ 1
  | .nextSegment => false
  | _ => true

/-- The extent is the greatest number in use, and no free address is blocked. -/
structure Tight (a : Allocator) : Prop where
  extent : a.nextId = a.maxUsed
  unblocked : ∀ s ∈ a.scopes, s.prohibited = []

theorem length_liveAddresses (h : a.Sound) : a.liveAddresses.length = a.inUse := by
  unfold liveAddresses
  rw [List.length_flatMap, h.inUse_eq]
  exact congrArg List.sum (List.map_congr_left fun b _ => List.length_range')

theorem Whole.extent_eq (hw : a.Whole) (h : a.Sound) :
    a.nextId = a.inUse + a.freeAddresses.length := by
  have hlen := hw.length_eq
  unfold held at hlen
  rw [List.length_append, length_liveAddresses h, List.length_range] at hlen
  exact hlen.symm

theorem Tight.used_up (ht : a.Tight) (h : a.Sound) (hs : a.Skipping) (hreuse : a.reuse = true)
    {name : String} (hok : allocate name 1 a = .ok a.nextId b) : a.freeAddresses = [] := by
  obtain ⟨k, -, -, ⟨hempty, -⟩ | ⟨i, id, rest, hi, -, htake⟩⟩ := hs.takeFree
  · refine List.flatMap_eq_nil_iff.mpr fun s hs => ?_
    rw [hempty s hs, ht.unblocked s hs]
    rfl
  · -- the address that is found lies below the extent
    exfalso
    have hlt := (h.pop hi).2.1
    rw [allocate_apply, if_neg Nat.one_ne_zero] at hok
    split at hok
    · cases hok
    · rw [if_pos ⟨rfl, hreuse⟩, takeOne_apply, htake] at hok
      cases hok
      exact Nat.lt_irrefl _ hlt

theorem Tight.of_books (ht : a.Tight) (e : b.books = a.books) : b.Tight := by
  have hnext : b.nextId = a.nextId := show b.books.nextId = a.books.nextId by rw [e]
  have hmax : b.maxUsed = a.maxUsed := show b.books.maxUsed = a.books.maxUsed by rw [e]
  refine ⟨by rw [hnext, hmax, ht.extent], fun s hs => ?_⟩
  have hmem : bare s ∈ a.scopes.map bare := by
    have hscopes : b.scopes.map bare = a.scopes.map bare := congrArg Allocator.scopes e
    exact hscopes ▸ List.mem_map_of_mem hs
  obtain ⟨t, ht', hst⟩ := List.mem_map.mp hmem
  have hprohibited : (bare t).prohibited = (bare s).prohibited := by rw [hst]
  exact hprohibited.symm.trans (ht.unblocked t ht')

theorem unblocked_updateScope (h : ∀ s ∈ a.scopes, s.prohibited = []) (i : Nat)
    {f : FreeScope → FreeScope} (hf : ∀ s, s.prohibited = [] → (f s).prohibited = []) :
    ∀ s ∈ (a.updateScope i f).scopes, s.prohibited = [] := by
  intro s hs
  obtain ⟨j, hj⟩ := List.mem_iff_getElem?.mp hs
  rw [scopes_updateScope] at hj
  split at hj
  · obtain ⟨t, ht, rfl⟩ := Option.map_eq_some_iff.mp hj
    exact hf t (h t (List.mem_of_getElem? ht))
  · exact h s (List.mem_of_getElem? hj)

theorem Tight.allocated (ht : a.Tight) (h : a.Sound) (hs : a.Skipping) (hw : a.Whole)
    (hreuse : a.reuse = true) {name : String} {count start : Nat} (hcount : count ≤ 1)
    (hok : allocate name count a = .ok start b) (hb : Allocated a name count start b) :
    b.Tight := by
  have hextent := hw.extent_eq h
  cases hb with
  | empty => exact ht
  | @reused _ i _ rest _ hi hb =>
    have hfree : a.freeAddresses ≠ [] := by
      intro hnil
      have := (free_pop hi).length_eq
      rw [hnil] at this
      cases this
    have hpos := List.length_pos_iff.mpr hfree
    refine Tight.of_books ?_ hb
    refine ⟨?_, unblocked_updateScope ht.unblocked i fun _ => id⟩
    show a.nextId = max a.maxUsed (a.inUse + 1)
    rw [← ht.extent]
    omega
  | fresh hpos _ _ _ hb =>
    obtain rfl : count = 1 := by omega
    rw [ht.used_up h hs hreuse hok] at hextent
    refine Tight.of_books (a := (a.grow 1).enter ⟨name, a.nextId, 1⟩) ⟨?_, ht.unblocked⟩ hb
    show a.nextId + 1 = max a.maxUsed (a.inUse + 1)
    rw [← ht.extent, hextent]
    simp

theorem allocate_of_answer {name : String} {count start : Nat}
    (h : a.answer? (.allocate name count) = some start) :
    allocate name count a = .ok start (a.serve (.allocate name count)) := by
  unfold answer? at h
  unfold serve
  simp only [Request.perform, Functor.map, EStateM.map] at h ⊢
  cases hok : allocate name count a with
  | ok x b =>
    rw [hok] at h
    cases h
    rfl
  | error e b =>
    rw [hok] at h
    cases h

theorem tight_serve (ht : a.Tight) (h : a.Sound) (hs : a.Skipping) (hw : a.Whole)
    (hreuse : a.reuse = true) {r : Request} (hr : r.isModest = true) : (a.serve r).Tight := by
  have hserved := a.served r
  generalize hb : a.serve r = b at hserved ⊢
  cases hserved with
  | refused hb => exact ht.of_books hb
  | allocate hans hall =>
    exact ht.allocated h hs hw hreuse (of_decide_eq_true hr) (hb ▸ allocate_of_answer hans) hall
  | @release c _ =>
    unfold putBack
    simp only [hreuse, if_true]
    exact ⟨ht.extent, unblocked_updateScope (a := { a with
      live := a.live.filter (·.start != c.start), inUse := a.inUse - c.count }) ht.unblocked _
      fun _ => id⟩
  | startArea =>
    refine ⟨ht.extent, fun s hs => ?_⟩
    rcases List.mem_append.mp hs with hs | hs
    · exact ht.unblocked s hs
    · rw [List.mem_singleton.mp hs]
  | nextSegment => cases hr
  | endArea =>
    refine ⟨ht.extent, unblocked_updateScope (a := { a with scopes := a.scopes.dropLast })
      (fun s hs => ht.unblocked s (List.dropLast_subset _ hs)) _ fun _ => id⟩
  | setReuse reuse => exact ⟨ht.extent, ht.unblocked⟩
  | reset =>
    refine ⟨rfl, fun s hs => ?_⟩
    rw [List.mem_singleton.mp hs]

/-! ## 3. Runs -/

theorem whole_serveAll (h : a.Sound) (hw : a.Whole) (hreuse : a.reuse = true) {rs : List Request}
    (hrs : .setReuse false ∉ rs) : (a.serveAll rs).Whole := by
  induction rs generalizing a with
  | nil => exact hw
  | cons r rs ih =>
    obtain ⟨hr, hrs⟩ := not_or.mp (mt List.mem_cons.mpr hrs)
    exact ih (sound_serve h r) (whole_serve h hw hreuse r) (reuse_serve hreuse (Ne.symm hr)) hrs

theorem tight_serveAll (ht : a.Tight) (h : a.Sound) (hs : a.Skipping) (hw : a.Whole)
    (hreuse : a.reuse = true) {rs : List Request} (hrs : .setReuse false ∉ rs)
    (hmodest : ∀ r ∈ rs, r.isModest = true) : (a.serveAll rs).Tight := by
  induction rs generalizing a with
  | nil => exact ht
  | cons r rs ih =>
    obtain ⟨hr, hrs⟩ := not_or.mp (mt List.mem_cons.mpr hrs)
    obtain ⟨hmodest, hrest⟩ := List.forall_mem_cons.mp hmodest
    exact ih (tight_serve ht h hs hw hreuse hmodest) (sound_serve h r) (skipping_serve hs r)
      (whole_serve h hw hreuse r) (reuse_serve hreuse (Ne.symm hr)) hrs hrest

theorem whole_withCapacity (c : Nat) (mayExtend : Bool) : (withCapacity c mayExtend).Whole :=
  List.Perm.refl _

theorem tight_withCapacity (c : Nat) (mayExtend : Bool) : (withCapacity c mayExtend).Tight := by
  refine ⟨rfl, fun s hs => ?_⟩
  rw [List.mem_singleton.mp hs]

/-- While released addresses are handed out again, each address below the extent is live or free, in
    one place; without large requests and closed segments the extent is the greatest number in use.
    -/
theorem nothing_lost (c : Nat) (mayExtend : Bool) (rs : List Request)
    (hreuse : .setReuse false ∉ rs) :
    ((withCapacity c mayExtend).serveAll rs).held.Perm
        (List.range ((withCapacity c mayExtend).serveAll rs).nextId) ∧
      (∀ x < ((withCapacity c mayExtend).serveAll rs).nextId,
        ((withCapacity c mayExtend).serveAll rs).held.count x = 1) ∧
      ((∀ r ∈ rs, r.isModest = true) → ((withCapacity c mayExtend).serveAll rs).nextId =
        ((withCapacity c mayExtend).serveAll rs).maxUsed) := by
  have h := sound_withCapacity c mayExtend
  have hw := whole_withCapacity c mayExtend
  have hwhole := whole_serveAll h hw rfl hreuse
  refine ⟨hwhole, fun x hx => hwhole.count_held hx, fun hmodest => ?_⟩
  exact (tight_serveAll (tight_withCapacity c mayExtend) h (skipping_withCapacity c mayExtend) hw
    rfl hreuse hmodest).extent

/-- Address 0 is released in one area and handed out again in an area nested in it; address 1 goes
    back to the outer area behind the end of the inner one. -/
def nestedAreas : List Request :=
  [.allocate "a" 1, .startArea, .release 0, .startArea, .allocate "b" 1, .allocate "c" 1, .endArea,
    .release 1, .endArea]

theorem nothing_lost_nestedAreas :
    ((withCapacity 8 true).serveAll nestedAreas).held.Perm (List.range 2) ∧
      (∀ x < 2, ((withCapacity 8 true).serveAll nestedAreas).held.count x = 1) ∧
      ((∀ r ∈ nestedAreas, r.isModest = true) →
        2 = ((withCapacity 8 true).serveAll nestedAreas).maxUsed) :=
  nothing_lost 8 true nestedAreas (by decide)

end QirProfile.Allocator
