import QirProfile.Proofs.Allocator.Search

/-!
# A refused request leaves no trace

A refused allocation may have moved a search pointer before it was refused. No one can tell: what a
request is answered with, and what it leaves behind, depends on the books alone as long as the
pointers skip only scopes without free addresses. So the states with and without the refused request
stay alike under any further requests.
-/

namespace QirProfile.Allocator

/-! ## 1. Answers -/

/-- What a request is answered with: an address or nothing, or why it is refused. -/
def outcome (a : Allocator) (r : Request) : Except AllocationError (Option Nat) :=
  match r.perform a with
  | .ok address _ => .ok address
  | .error e _ => .error e

/-- What requests are answered with that are served one after the other. -/
def outcomes (a : Allocator) : List Request → List (Except AllocationError (Option Nat))
  | [] => []
  | r :: rs => a.outcome r :: (a.serve r).outcomes rs

/-- Two states that differ in their search pointers only, and whose pointers skip only scopes
    without free addresses. -/
structure Alike (a b : Allocator) : Prop where
  books : b.books = a.books
  left : a.Skipping
  right : b.Skipping

/-- Two operations came to the same, search pointers aside. -/
def SameResult {α : Type} (x y : EStateM.Result AllocationError Allocator α) : Prop :=
  (∃ answer a b, x = .ok answer a ∧ y = .ok answer b ∧ b.books = a.books) ∨
    ∃ e a b, x = .error e a ∧ y = .error e b ∧ b.books = a.books

variable {a b : Allocator}

/-! ## 2. What the books tell -/

theorem eq_of_books (h : b.books = a.books) :
    ∃ scopes, b = { a with scopes := scopes } ∧ scopes.map bare = a.scopes.map bare := by
  obtain ⟨bn, bi, bc, bm, br, bs, bl, bu, bx⟩ := b
  obtain ⟨an, ai, ac, am, ar, as, al, au, ax⟩ := a
  unfold books at h
  simp only [Allocator.mk.injEq] at h ⊢
  obtain ⟨hn, hi, hc, hm, hr, hs, hl, hu, hx⟩ := h
  exact ⟨bs, ⟨hn, hi, hc, hm, hr, rfl, hl, hu, hx⟩, hs⟩

theorem books_withScopes {ss ts : List FreeScope} (hs : ts.map bare = ss.map bare) :
    books { a with scopes := ts } = books { a with scopes := ss } := by
  unfold books
  rw [hs]

theorem length_of_books (h : b.books = a.books) : b.scopes.length = a.scopes.length := by
  have hlen : (b.scopes.map bare).length = (a.scopes.map bare).length :=
    congrArg (fun c => c.scopes.length) h
  rwa [List.length_map, List.length_map] at hlen

theorem top_of_books (h : b.books = a.books) : b.top = a.top := by
  unfold top
  rw [length_of_books h]

theorem bare_scope (h : b.books = a.books) (i : Nat) : bare (b.scope i) = bare (a.scope i) := by
  have hget : (b.scopes.map bare)[i]? = (a.scopes.map bare)[i]? :=
    congrArg (fun c => c.scopes[i]?) h
  rw [List.getElem?_map, List.getElem?_map] at hget
  unfold scope
  rw [List.getD_eq_getElem?_getD, List.getD_eq_getElem?_getD]
  cases hb : b.scopes[i]? <;> cases ha : a.scopes[i]? <;> simp_all

theorem bare_eq {s t : FreeScope} :
    bare t = bare s ↔ t.allowed = s.allowed ∧ t.prohibited = s.prohibited := by
  unfold bare
  rw [FreeScope.mk.injEq]
  exact ⟨fun h => ⟨h.1, h.2.1⟩, fun h => ⟨h.1, h.2, rfl⟩⟩

theorem map_bare_modify {l m : List FreeScope} (h : m.map bare = l.map bare) (i : Nat)
    {f g : FreeScope → FreeScope} (hfg : ∀ s t, bare t = bare s → bare (g t) = bare (f s)) :
    (m.modify i g).map bare = (l.modify i f).map bare := by
  apply List.ext_getElem?
  intro j
  have hget : (m.map bare)[j]? = (l.map bare)[j]? := by rw [h]
  rw [List.getElem?_map, List.getElem?_map] at hget
  rw [List.getElem?_map, List.getElem?_map, List.getElem?_modify, List.getElem?_modify]
  cases hm : m[j]? with
  | none =>
    cases hl : l[j]? with
    | none => rfl
    | some s => rw [hm, hl] at hget; cases hget
  | some t =>
    cases hl : l[j]? with
    | none => rw [hm, hl] at hget; cases hget
    | some s =>
      rw [hm, hl] at hget
      have hst : bare t = bare s := Option.some.inj hget
      by_cases hij : i = j
      · simp [hij, hfg s t hst]
      · simp [hij, hst]

/-! ## 3. Each operation on states with the same books -/

theorem books_startArea (h : b.books = a.books) : b.startArea.books = a.startArea.books := by
  obtain ⟨ss, rfl, hs⟩ := eq_of_books h
  refine books_withScopes ?_
  rw [List.map_append, List.map_append, hs]
  rfl

theorem books_closeSegment (h : b.books = a.books) :
    b.closeSegment.books = a.closeSegment.books := by
  have htop := top_of_books h
  obtain ⟨ss, rfl, hs⟩ := eq_of_books h
  unfold closeSegment updateScope
  rw [htop]
  refine books_withScopes (map_bare_modify hs _ fun s t hst => ?_)
  obtain ⟨hallowed, hprohibited⟩ := bare_eq.mp hst
  exact bare_eq.mpr ⟨rfl, by rw [hallowed, hprohibited]⟩

theorem books_closeArea (h : b.books = a.books) : b.closeArea.books = a.closeArea.books := by
  have htop := top_of_books h
  obtain ⟨hallowed, hprohibited⟩ := bare_eq.mp (bare_scope h a.top)
  obtain ⟨ss, rfl, hs⟩ := eq_of_books h
  have hmap : ss.dropLast.map bare = a.scopes.dropLast.map bare := by
    rw [List.map_dropLast, List.map_dropLast, hs]
  have hinner : top { a with scopes := ss.dropLast } = top { a with scopes := a.scopes.dropLast } :=
    top_of_books (books_withScopes hmap)
  unfold closeArea updateScope
  dsimp only
  rw [htop, hinner]
  refine books_withScopes (map_bare_modify hmap _ fun s t hst => bare_eq.mpr ⟨?_, ?_⟩)
  · dsimp only
    rw [hallowed, hprohibited, (bare_eq.mp hst).1]
  · exact (bare_eq.mp hst).2

theorem books_putBack (h : b.books = a.books) (c : Allocation) :
    (b.putBack c).books = (a.putBack c).books := by
  have htop := top_of_books h
  obtain ⟨ss, rfl, hs⟩ := eq_of_books h
  unfold putBack updateScope
  dsimp only
  rw [htop]
  split
  · refine books_withScopes (a := { a with
      live := a.live.filter (·.start != c.start), inUse := a.inUse - c.count })
      (map_bare_modify hs _ fun s t hst => ?_)
    obtain ⟨hallowed, hprohibited⟩ := bare_eq.mp hst
    exact bare_eq.mpr ⟨by rw [hallowed], hprohibited⟩
  · exact books_withScopes (a := { a with
      live := a.live.filter (·.start != c.start), inUse := a.inUse - c.count }) hs

theorem scan_books (h : b.books = a.books) :
    b.scan.1 = a.scan.1 ∧ b.scan.2.books = a.scan.2.books := by
  have hfirst : ∀ l : List FreeScope, takeFirst (l.map bare) =
      (takeFirst l).map fun found => (found.1, found.2.map bare) := by
    intro l
    induction l with
    | nil => rfl
    | cons s l ih =>
      rw [List.map_cons, takeFirst, takeFirst, ih]
      have hs : (bare s).allowed = s.allowed := rfl
      rw [hs]
      cases s.allowed with
      | nil => cases takeFirst l <;> rfl
      | cons id rest => rfl
  obtain ⟨ss, rfl, hs⟩ := eq_of_books h
  have hsame : (takeFirst ss.reverse).map (fun found => (found.1, found.2.map bare)) =
      (takeFirst a.scopes.reverse).map fun found => (found.1, found.2.map bare) := by
    rw [← hfirst, ← hfirst, List.map_reverse, List.map_reverse, hs]
  unfold scan
  dsimp only
  cases hb : takeFirst ss.reverse with
  | none =>
    cases ha : takeFirst a.scopes.reverse with
    | none => exact ⟨rfl, h⟩
    | some found => rw [hb, ha] at hsame; cases hsame
  | some found =>
    cases ha : takeFirst a.scopes.reverse with
    | none => rw [hb, ha] at hsame; cases hsame
    | some found' =>
      rw [hb, ha] at hsame
      obtain ⟨hid, hscopes⟩ := Prod.mk.inj (Option.some.inj hsame)
      refine ⟨congrArg some hid, books_withScopes ?_⟩
      rw [List.map_reverse, List.map_reverse, hscopes]

theorem Alike.takeFree (h : Alike a b) :
    b.takeFree.1 = a.takeFree.1 ∧ b.takeFree.2.books = a.takeFree.2.books := by
  obtain ⟨k, ha⟩ := h.left.takeFree_eq
  obtain ⟨l, hb⟩ := h.right.takeFree_eq
  obtain ⟨hfound, hbooks⟩ := scan_books h.books
  rw [ha, hb]
  refine ⟨hfound, ?_⟩
  rw [books_setOutward, books_setOutward]
  exact hbooks

/-! ## 4. One request -/

theorem sameResult_ok {α : Type} (answer : α) (h : b.books = a.books) :
    SameResult (.ok answer a) (.ok answer b) :=
  .inl ⟨answer, a, b, rfl, rfl, h⟩

theorem sameResult_error {α : Type} (e : AllocationError) (h : b.books = a.books) :
    SameResult (α := α) (.error e a) (.error e b) :=
  .inr ⟨e, a, b, rfl, rfl, h⟩

theorem SameResult.map {α β : Type} {x y : Allocating α} (h : SameResult (x a) (y b)) (f : α → β) :
    SameResult ((f <$> x) a) ((f <$> y) b) := by
  simp only [Functor.map, EStateM.map]
  rcases h with ⟨answer, a', b', hx, hy, hbooks⟩ | ⟨e, a', b', hx, hy, hbooks⟩
  · rw [hx, hy]
    exact sameResult_ok _ hbooks
  · rw [hx, hy]
    exact sameResult_error _ hbooks

theorem extend_same (h : b.books = a.books) (count : Nat) :
    SameResult (extend count a) (extend count b) := by
  have hgrown := books_grow h count
  obtain ⟨ss, rfl, -⟩ := eq_of_books h
  rw [extend_apply, extend_apply]
  dsimp only
  split
  · exact sameResult_error _ h
  · exact sameResult_ok _ hgrown

theorem Alike.takeOne_same (h : Alike a b) : SameResult (takeOne a) (takeOne b) := by
  obtain ⟨hfound, hbooks⟩ := h.takeFree
  rw [takeOne_apply, takeOne_apply]
  rcases ha : a.takeFree with ⟨found, a'⟩
  rcases hb : b.takeFree with ⟨found', b'⟩
  rw [ha, hb] at hfound hbooks
  obtain rfl : found' = found := hfound
  cases found' with
  | none => exact extend_same hbooks 1
  | some id => exact sameResult_ok id hbooks

theorem Alike.allocate_same (h : Alike a b) (name : String) (count : Nat) :
    SameResult (allocate name count a) (allocate name count b) := by
  have hnext : b.nextId = a.nextId :=
    show b.books.nextId = a.books.nextId by rw [h.books]
  have hcapacity : b.capacity = a.capacity :=
    show b.books.capacity = a.books.capacity by rw [h.books]
  have hused : b.inUse = a.inUse :=
    show b.books.inUse = a.books.inUse by rw [h.books]
  have hreuse : b.reuse = a.reuse :=
    show b.books.reuse = a.books.reuse by rw [h.books]
  rw [allocate_apply, allocate_apply, hnext, hcapacity, hused, hreuse]
  split
  · exact sameResult_ok _ h.books
  split
  · exact sameResult_error _ h.books
  have hstart : SameResult ((if count = 1 ∧ a.reuse then takeOne else extend count) a)
      ((if count = 1 ∧ a.reuse then takeOne else extend count) b) := by
    split
    · exact h.takeOne_same
    · exact extend_same h.books count
  rcases hstart with ⟨start, a', b', hx, hy, hbooks⟩ | ⟨e, a', b', hx, hy, hbooks⟩
  · rw [hx, hy]
    exact sameResult_ok _ (books_enter hbooks _)
  · rw [hx, hy]
    exact sameResult_error _ hbooks

theorem release_apply (address : Nat) (a : Allocator) :
    release address a = match a.live.find? (·.start == address) with
      | none => .error (.notAllocated address) a
      | some b => .ok () (a.putBack b) := by
  unfold release
  rw [get_bind]
  cases hfound : a.live.find? (·.start == address) with
  | none => rfl
  | some b =>
    have hb : b.start = address := by simpa using List.find?_some hfound
    subst hb
    rfl

theorem Alike.perform_same (h : Alike a b) (r : Request) :
    SameResult (r.perform a) (r.perform b) := by
  have hbooks := h.books
  cases r with
  | allocate name count => exact (h.allocate_same name count).map some
  | release address =>
    refine SameResult.map ?_ fun _ => none
    have hlive : b.live = a.live :=
    show b.books.live = a.books.live by rw [hbooks]
    rw [release_apply, release_apply, hlive]
    cases a.live.find? (·.start == address) with
    | none => exact sameResult_error _ hbooks
    | some c => exact sameResult_ok () (books_putBack hbooks c)
  | startArea => exact sameResult_ok none (books_startArea hbooks)
  | nextSegment =>
    refine SameResult.map ?_ fun _ => none
    unfold nextSegment
    rw [get_bind, get_bind, length_of_books hbooks]
    split
    · exact sameResult_error _ hbooks
    · exact sameResult_ok () (books_closeSegment hbooks)
  | endArea =>
    refine SameResult.map ?_ fun _ => none
    unfold endArea
    rw [get_bind, get_bind, length_of_books hbooks]
    split
    · exact sameResult_error _ hbooks
    · exact sameResult_ok () (books_closeArea hbooks)
  | setReuse reuse =>
    refine sameResult_ok none ?_
    obtain ⟨ss, rfl, hs⟩ := eq_of_books hbooks
    exact books_withScopes (a := a.setReuse reuse) hs
  | reset =>
    refine sameResult_ok none ?_
    obtain ⟨ss, rfl, -⟩ := eq_of_books hbooks
    rfl

theorem Alike.outcome_eq (h : Alike a b) (r : Request) : b.outcome r = a.outcome r := by
  unfold outcome
  rcases h.perform_same r with ⟨answer, a', b', hx, hy, -⟩ | ⟨e, a', b', hx, hy, -⟩ <;>
    rw [hx, hy]

theorem alike_serve (h : Alike a b) (r : Request) : Alike (a.serve r) (b.serve r) := by
  refine ⟨?_, skipping_serve h.left r, skipping_serve h.right r⟩
  unfold serve
  rcases h.perform_same r with ⟨answer, a', b', hx, hy, hbooks⟩ | ⟨e, a', b', hx, hy, hbooks⟩ <;>
    rw [hx, hy] <;> exact hbooks

/-! ## 5. Runs -/

theorem Alike.run (h : Alike a b) (rs : List Request) :
    b.outcomes rs = a.outcomes rs ∧ (b.serveAll rs).books = (a.serveAll rs).books := by
  induction rs generalizing a b with
  | nil => exact ⟨rfl, h.books⟩
  | cons r rs ih =>
    obtain ⟨houtcomes, hbooks⟩ := ih (alike_serve h r)
    refine ⟨?_, hbooks⟩
    unfold outcomes
    rw [h.outcome_eq r, houtcomes]

theorem books_of_refused {r : Request} {e : AllocationError} (h : a.outcome r = .error e) :
    (a.serve r).books = a.books := by
  unfold outcome at h
  unfold serve
  cases hr : r.perform a with
  | ok answer b =>
    rw [hr] at h
    cases h
  | error e' b =>
    cases r with
    | allocate name count =>
      simp only [Request.perform, Functor.map, EStateM.map] at hr
      split at hr
      · cases hr
      · cases hr
        exact allocate_error ‹_›
    | release address =>
      simp only [Request.perform, Functor.map, EStateM.map, release_apply] at hr
      cases hfound : a.live.find? (·.start == address) with
      | none =>
        rw [hfound] at hr
        cases hr
        rfl
      | some c =>
        rw [hfound] at hr
        cases hr
    | nextSegment =>
      simp only [Request.perform, Functor.map, EStateM.map, nextSegment, get_bind] at hr
      by_cases hfew : a.scopes.length < 2
      · rw [if_pos hfew] at hr
        cases hr
        rfl
      · rw [if_neg hfew] at hr
        cases hr
    | endArea =>
      simp only [Request.perform, Functor.map, EStateM.map, endArea, get_bind] at hr
      by_cases hfew : a.scopes.length < 2
      · rw [if_pos hfew] at hr
        cases hr
        rfl
      · rw [if_neg hfew] at hr
        cases hr
    | startArea => cases hr
    | setReuse reuse => cases hr
    | reset => cases hr

/-- A refused request leaves the books as they were, and no later request is answered otherwise. -/
theorem refused_unseen (c : Nat) (mayExtend : Bool) (before : List Request) (r : Request)
    (e : AllocationError)
    (h : ((withCapacity c mayExtend).serveAll before).outcome r = .error e) :
    (((withCapacity c mayExtend).serveAll before).serve r).books =
        ((withCapacity c mayExtend).serveAll before).books ∧
      ∀ after : List Request,
        (((withCapacity c mayExtend).serveAll before).serve r).outcomes after =
            ((withCapacity c mayExtend).serveAll before).outcomes after ∧
          ((((withCapacity c mayExtend).serveAll before).serve r).serveAll after).books =
            (((withCapacity c mayExtend).serveAll before).serveAll after).books := by
  have hskipping := skipping_serveAll (skipping_withCapacity c mayExtend) before
  generalize (withCapacity c mayExtend).serveAll before = a at h hskipping
  have hbooks := books_of_refused h
  exact ⟨hbooks, fun after => Alike.run ⟨hbooks, hskipping, skipping_serve hskipping r⟩ after⟩

/-- An allocator without free addresses in the inner of two areas. -/
def exhausted : Allocator :=
  (withCapacity 1 false).serveAll [.allocate "a" 1, .startArea, .startArea]

theorem refused_unseen_exhausted :
    (exhausted.scope 2).outward = 1 ∧
      ((exhausted.serve (.allocate "b" 1)).scope 2).outward = 0 ∧
      exhausted.outcome (.allocate "b" 1) = .error (.capacityExhausted 1 1) ∧
      (exhausted.serve (.allocate "b" 1)).books = exhausted.books ∧
      ∀ after : List Request,
        (exhausted.serve (.allocate "b" 1)).outcomes after = exhausted.outcomes after ∧
          ((exhausted.serve (.allocate "b" 1)).serveAll after).books =
            (exhausted.serveAll after).books :=
  ⟨by decide, by decide, by decide, refused_unseen 1 false [.allocate "a" 1, .startArea, .startArea]
    (.allocate "b" 1) (.capacityExhausted 1 1) (by decide)⟩

end QirProfile.Allocator
