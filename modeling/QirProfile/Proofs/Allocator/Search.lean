import Mathlib.Data.List.Basic
import QirProfile.Proofs.Allocator.Requests

/-!
# Searching for a free address

A search does not look at every scope: it starts at the innermost one and follows the pointers
outwards. It may pass over a scope only if that has no free address, and this is the invariant
`Skipping`: a pointer leads strictly outwards, and no scope that it passes over has a free address.
-/

namespace QirProfile.Allocator

/-! ## 1. The two searches -/

/-- The first free address of the first scope that has one, and the scopes without it. -/
def takeFirst : List FreeScope → Option (Nat × List FreeScope)
  | [] => none
  | s :: rest =>
    match s.allowed with
    | id :: others => some (id, { s with allowed := others } :: rest)
    | [] => (takeFirst rest).map fun found => (found.1, s :: found.2)

/-- Takes a free address of the innermost scope that has one, looking at one scope after the other
    from the innermost outwards. -/
def scan (a : Allocator) : Option Nat × Allocator :=
  match takeFirst a.scopes.reverse with
  | some (id, inwards) => (some id, { a with scopes := inwards.reverse })
  | none => (none, a)

/-- The loop that follows the pointers comes from the scope at `i` to an end at `j`. -/
inductive Leads (a : Allocator) : (i j : Nat) → Prop where
  | stop {i : Nat} (h : (a.scope (a.scope i).outward).allowed ≠ [] ∨ (a.scope i).outward = 0) :
      Leads a i (a.scope i).outward
  | goOn {i j : Nat} (hempty : (a.scope (a.scope i).outward).allowed = [])
      (hinner : (a.scope i).outward ≠ 0) (hrest : Leads a (a.scope i).outward j) : Leads a i j

/-- **The invariant.** -/
structure Skipping (a : Allocator) : Prop where
  rooted : a.scopes ≠ []
  outward_lt : ∀ i, 0 < i → (a.scope i).outward < i
  passed : ∀ i j, i < a.scopes.length → (a.scope i).outward < j → j < i → (a.scope j).allowed = []

variable {a b : Allocator} {i j id : Nat} {rest : List Nat}

/-! ## 2. Scopes by their index -/

theorem scope_updateScope (a : Allocator) (i : Nat) (f : FreeScope → FreeScope) (j : Nat) :
    (a.updateScope i f).scope j =
      if i = j ∧ j < a.scopes.length then f (a.scope j) else a.scope j := by
  unfold scope
  rw [List.getD_eq_getElem?_getD, scopes_updateScope, List.getD_eq_getElem?_getD]
  by_cases hij : i = j
  · by_cases hj : j < a.scopes.length
    · simp [hij, hj]
    · simp [hij, hj]
  · simp [hij]

theorem length_updateScope (a : Allocator) (i : Nat) (f : FreeScope → FreeScope) :
    (a.updateScope i f).scopes.length = a.scopes.length :=
  List.length_modify ..

theorem scope_of_le (h : a.scopes.length ≤ i) : a.scope i = {} := by
  unfold scope
  rw [List.getD_eq_getElem?_getD, List.getElem?_eq_none h]
  rfl

theorem scope_of_lt (h : i < a.scopes.length) : a.scope i = a.scopes[i] := by
  unfold scope
  rw [List.getD_eq_getElem?_getD, List.getElem?_eq_getElem h]
  rfl

theorem forall_scopes {P : FreeScope → Prop} :
    (∀ s ∈ a.scopes, P s) ↔ ∀ i, i < a.scopes.length → P (a.scope i) := by
  constructor
  · intro h i hi
    rw [scope_of_lt hi]
    exact h _ (List.getElem_mem hi)
  · intro h s hs
    obtain ⟨i, hi, rfl⟩ := List.mem_iff_getElem.mp hs
    rw [← scope_of_lt hi]
    exact h i hi

theorem popFree_nil (h : (a.scope i).allowed = []) : a.popFree i = (none, a) := by
  unfold popFree
  rw [h]

/-! ## 3. What the plain scan finds -/

theorem takeFirst_append {inner outer : List FreeScope} (h : ∀ s ∈ inner, s.allowed = []) :
    takeFirst (inner ++ outer) =
      (takeFirst outer).map fun found => (found.1, inner ++ found.2) := by
  induction inner with
  | nil => simp
  | cons s inner ih =>
    obtain ⟨hs, hinner⟩ := List.forall_mem_cons.mp h
    rw [List.cons_append, takeFirst, hs, ih hinner]
    cases takeFirst outer <;> rfl

theorem scan_some (hi : (a.scope i).allowed = id :: rest)
    (hinner : ∀ j, i < j → (a.scope j).allowed = []) : a.scan = (some id, a.pop i) := by
  obtain ⟨s, hs, hid⟩ := scope_of_allowed hi
  obtain ⟨hlt, -⟩ := List.getElem?_eq_some_iff.mp hs
  obtain ⟨outer, t, inner, hl, hlen, hm⟩ :=
    List.exists_of_modify (fun s => { s with allowed := s.allowed.tail }) hlt
  obtain rfl : t = s := by
    rw [hl] at hs
    simpa [← hlen] using hs
  have hempty : ∀ u ∈ inner.reverse, u.allowed = [] := by
    intro u hu
    obtain ⟨k, hk, rfl⟩ := List.mem_iff_getElem.mp (List.mem_reverse.mp hu)
    have hscope : a.scope (i + 1 + k) = inner[k] := by
      unfold scope
      rw [List.getD_eq_getElem?_getD, hl, List.getElem?_append_right (by omega), hlen,
        show i + 1 + k - i = k + 1 by omega, List.getElem?_cons_succ, List.getElem?_eq_getElem hk]
      rfl
    rw [← hscope]
    exact hinner _ (by omega)
  have hfound : takeFirst a.scopes.reverse =
      some (id, inner.reverse ++ { t with allowed := rest } :: outer.reverse) := by
    rw [hl, List.reverse_append, List.reverse_cons, List.append_assoc, List.singleton_append,
      takeFirst_append hempty, takeFirst, hid]
    rfl
  unfold scan pop updateScope
  rw [hfound, hm, hid]
  simp

theorem scan_none (h : ∀ s ∈ a.scopes, s.allowed = []) : a.scan = (none, a) := by
  have hfound : takeFirst (a.scopes.reverse ++ []) = none := by
    rw [takeFirst_append fun s hs => h s (List.mem_reverse.mp hs)]
    rfl
  unfold scan
  rw [List.append_nil] at hfound
  rw [hfound]

/-! ## 4. The loop -/

theorem leads_search (h : a.Skipping) {fuel : Nat} (hi : 0 < i) (hfuel : i ≤ fuel) :
    a.Leads i (a.search fuel i) := by
  induction fuel generalizing i with
  | zero => omega
  | succ fuel ih =>
    have hlt := h.outward_lt i hi
    unfold search
    dsimp only
    split
    · exact .stop ‹_›
    · rename_i hgo
      rw [not_or, not_not] at hgo
      exact .goOn hgo.1 hgo.2 (ih (Nat.pos_of_ne_zero hgo.2) (by omega))

theorem Leads.found (h : a.Skipping) (hi : 0 < i) (hlt : i < a.scopes.length) (hl : a.Leads i j) :
    j < i ∧ ((a.scope j).allowed ≠ [] ∨ j = 0) ∧ ∀ k, j < k → k < i → (a.scope k).allowed = [] := by
  induction hl with
  | stop hstop => exact ⟨h.outward_lt _ hi, hstop, fun k hk hki => h.passed _ k hlt hk hki⟩
  | @goOn i j hempty hinner _ ih =>
    have houtward := h.outward_lt i hi
    obtain ⟨hji, hj, hpassed⟩ := ih (Nat.pos_of_ne_zero hinner) (by omega)
    refine ⟨by omega, hj, fun k hk hki => ?_⟩
    rcases Nat.lt_trichotomy k (a.scope i).outward with hlt' | rfl | hgt
    · exact hpassed k hk hlt'
    · exact hempty
    · exact h.passed i k hlt hgt hki

/-! ## 5. Both searches come to the same -/

theorem Skipping.top_lt (h : a.Skipping) : a.top < a.scopes.length := by
  have := List.length_pos_iff.mpr h.rooted
  unfold top
  omega

theorem allowed_of_top_lt (h : a.top < i) : (a.scope i).allowed = [] := by
  rw [scope_of_le (by unfold top at h; omega)]

theorem setOutward_self (a : Allocator) (i : Nat) :
    a.updateScope i ({ · with outward := (a.scope i).outward }) = a := by
  have hscopes : a.scopes.modify i ({ · with outward := (a.scope i).outward }) = a.scopes := by
    apply List.ext_getElem?
    intro j
    rw [List.getElem?_modify]
    by_cases hij : i = j
    · subst hij
      unfold scope
      cases hs : a.scopes[i]? with
      | none => simp
      | some s => simp [List.getD_eq_getElem?_getD, hs]
    · simp [hij]
  unfold updateScope
  rw [hscopes]

theorem Skipping.takeFree (h : a.Skipping) :
    ∃ k, (0 < a.top → k < a.top) ∧ (∀ j, k < j → j < a.top → (a.scope j).allowed = []) ∧
      ((∀ s ∈ a.scopes, s.allowed = []) ∧
          a.takeFree = (none, a.updateScope a.top ({ · with outward := k })) ∨
        ∃ i id rest, (a.scope i).allowed = id :: rest ∧
          (∀ j, i < j → (a.scope j).allowed = []) ∧
          a.takeFree = (some id, (a.pop i).updateScope a.top ({ · with outward := k }))) := by
  have htop := h.top_lt
  cases hallowed : (a.scope a.top).allowed with
  | cons id rest =>
    have hpoint : ((a.pop a.top).scope a.top).outward = (a.scope a.top).outward := by
      unfold pop
      rw [scope_updateScope, if_pos ⟨rfl, htop⟩]
    refine ⟨(a.scope a.top).outward, h.outward_lt _, fun j => h.passed _ j htop, .inr
      ⟨a.top, id, rest, hallowed, fun j => allowed_of_top_lt, ?_⟩⟩
    rw [← hpoint, setOutward_self]
    unfold Allocator.takeFree
    rw [popFree_cons hallowed]
  | nil =>
    by_cases hzero : a.top = 0
    · refine ⟨(a.scope a.top).outward, fun hpos => absurd hzero (Nat.ne_of_gt hpos), by omega, .inl
        ⟨forall_scopes.mpr fun j hj => ?_, ?_⟩⟩
      · obtain rfl : j = a.top := by unfold top at hzero ⊢; omega
        exact hallowed
      · rw [setOutward_self]
        unfold Allocator.takeFree
        rw [popFree_nil hallowed]
        exact if_pos hzero
    · have hpos := Nat.pos_of_ne_zero hzero
      obtain ⟨hlt, hend, hpassed⟩ :=
        (leads_search h hpos (Nat.le_of_lt htop)).found h hpos htop
      have htake : a.takeFree = ((a.popFree (a.search a.scopes.length a.top)).1,
          (a.popFree (a.search a.scopes.length a.top)).2.updateScope a.top
            ({ · with outward := a.search a.scopes.length a.top })) := by
        unfold Allocator.takeFree
        rw [popFree_nil hallowed]
        exact if_neg hzero
      refine ⟨a.search a.scopes.length a.top, fun _ => hlt, hpassed, ?_⟩
      rw [htake]
      generalize a.search a.scopes.length a.top = k at hlt hend hpassed
      have hinner : ∀ j, k < j → (a.scope j).allowed = [] := by
        intro j hj
        rcases Nat.lt_trichotomy j a.top with hjt | rfl | hjt
        · exact hpassed j hj hjt
        · exact hallowed
        · exact allowed_of_top_lt hjt
      cases hk : (a.scope k).allowed with
      | cons id rest => exact .inr ⟨k, id, rest, hk, hinner, by rw [popFree_cons hk]⟩
      | nil =>
        have hk0 : k = 0 := hend.resolve_left (not_not.mpr hk)
        refine .inl ⟨forall_scopes.mpr fun j _ => ?_, by rw [popFree_nil hk]⟩
        rcases Nat.eq_zero_or_pos j with hj | hj
        · rw [hj, ← hk0]
          exact hk
        · exact hinner j (by omega)

theorem Skipping.takeFree_eq (h : a.Skipping) :
    ∃ k, a.takeFree = (a.scan.1, a.scan.2.updateScope a.top ({ · with outward := k })) := by
  obtain ⟨k, -, -, ⟨hempty, htake⟩ | ⟨i, id, rest, hi, hinner, htake⟩⟩ := h.takeFree
  · exact ⟨k, by rw [htake, scan_none hempty]⟩
  · exact ⟨k, by rw [htake, scan_some hi hinner]⟩

theorem scan_eq_none : a.scan.1 = none ↔ ∀ s ∈ a.scopes, s.allowed = [] := by
  have hfirst : ∀ l : List FreeScope, takeFirst l = none ↔ ∀ s ∈ l, s.allowed = [] := by
    intro l
    induction l with
    | nil => simp [takeFirst]
    | cons s l ih =>
      rw [takeFirst, List.forall_mem_cons, ← ih]
      cases s.allowed <;> simp
  have hnone : a.scan.1 = none ↔ takeFirst a.scopes.reverse = none := by
    unfold scan
    cases takeFirst a.scopes.reverse <;> simp
  rw [hnone, hfirst]
  simp only [List.mem_reverse]

/-! ## 6. One request keeps the invariant -/

theorem Skipping.of_scopes (h : a.Skipping) (hs : b.scopes = a.scopes) : b.Skipping := by
  have hscope : ∀ i, b.scope i = a.scope i := by
    intro i
    unfold scope
    rw [hs]
  refine ⟨hs ▸ h.rooted, fun i hi => ?_, fun i j hi hj hji => ?_⟩
  · rw [hscope]
    exact h.outward_lt i hi
  · rw [hscope] at hj ⊢
    exact h.passed i j (hs ▸ hi) hj hji

theorem Skipping.updateScope (h : a.Skipping) {f : FreeScope → FreeScope}
    (hout : 0 < i → (f (a.scope i)).outward < i)
    (hpassed : ∀ j, (f (a.scope i)).outward < j → j < i → (a.scope j).allowed = [])
    (hkept : i < a.top → (a.scope i).allowed = [] → (f (a.scope i)).allowed = []) :
    (a.updateScope i f).Skipping := by
  refine ⟨?_, fun k hk => ?_, fun k j hk hj hjk => ?_⟩
  · intro hnil
    exact h.rooted (List.modify_eq_nil_iff.mp hnil)
  · rw [scope_updateScope]
    split
    · rename_i hik
      obtain ⟨rfl, -⟩ := hik
      exact hout hk
    · exact h.outward_lt k hk
  · rw [length_updateScope] at hk
    rw [scope_updateScope] at hj ⊢
    by_cases hik : i = k
    · subst hik
      rw [if_pos ⟨rfl, hk⟩] at hj
      rw [if_neg fun hij => Nat.ne_of_gt hjk hij.1]
      exact hpassed j hj hjk
    · rw [if_neg fun hi => hik hi.1] at hj
      have hempty := h.passed k j hk hj hjk
      split
      · rename_i hij
        obtain ⟨rfl, -⟩ := hij
        exact hkept (by unfold top; omega) hempty
      · exact hempty

theorem Skipping.pop (h : a.Skipping) (i : Nat) : (a.pop i).Skipping := by
  by_cases hi : i < a.scopes.length
  · refine h.updateScope (h.outward_lt i) (fun j => h.passed i j hi) fun _ hempty => ?_
    rw [hempty]
    rfl
  · refine h.of_scopes ?_
    exact List.modify_eq_self (Nat.le_of_not_lt hi)

theorem Skipping.setOutward (h : a.Skipping) {k : Nat} (hk : 0 < a.top → k < a.top)
    (hpassed : ∀ j, k < j → j < a.top → (a.scope j).allowed = []) :
    (a.updateScope a.top ({ · with outward := k })).Skipping :=
  h.updateScope hk hpassed fun hlt => absurd hlt (Nat.lt_irrefl _)

theorem Skipping.searched (h : a.Skipping) : a.takeFree.2.Skipping := by
  obtain ⟨k, hk, hpassed, ⟨-, htake⟩ | ⟨i, id, rest, -, -, htake⟩⟩ := h.takeFree
  · rw [htake]
    exact h.setOutward hk hpassed
  · have htop : (a.pop i).top = a.top := by
      unfold top Allocator.pop
      rw [length_updateScope]
    have hempty : ∀ j, (a.scope j).allowed = [] → ((a.pop i).scope j).allowed = [] := by
      intro j hj
      unfold Allocator.pop
      rw [scope_updateScope]
      split
      · simp [hj]
      · exact hj
    rw [htake, ← htop]
    exact (h.pop i).setOutward (htop ▸ hk) fun j hkj hj => hempty j (hpassed j hkj (htop ▸ hj))

theorem scopes_allocate (a : Allocator) (name : String) (count : Nat) :
    (a.serve (.allocate name count)).scopes = a.scopes ∨
      (a.serve (.allocate name count)).scopes = a.takeFree.2.scopes := by
  -- Whether it is answered or refused, the state behind the request is that of the allocation.
  suffices h : ∀ b, (∃ start, allocate name count a = .ok start b) ∨
      (∃ e, allocate name count a = .error e b) →
        b.scopes = a.scopes ∨ b.scopes = a.takeFree.2.scopes by
    cases hresult : allocate name count a with
    | ok start b =>
      rw [show a.serve (.allocate name count) = b by
        simp [serve, Request.perform, Functor.map, EStateM.map, hresult]]
      exact h b (.inl ⟨start, hresult⟩)
    | error e b =>
      rw [show a.serve (.allocate name count) = b by
        simp [serve, Request.perform, Functor.map, EStateM.map, hresult]]
      exact h b (.inr ⟨e, hresult⟩)
  have hextend : ∀ (n : Nat) (b : Allocator), (∃ e, extend n b = .error e b) ∨
      extend n b = .ok b.nextId (b.grow n) := by
    intro n b
    rw [extend_apply]
    split
    · exact .inl ⟨_, rfl⟩
    · exact .inr rfl
  intro b hb
  rw [allocate_apply] at hb
  by_cases hzero : count = 0
  · rw [if_pos hzero] at hb
    rcases hb with ⟨start, h⟩ | ⟨e, h⟩ <;> cases h
    exact .inl rfl
  by_cases hword : span 64 ≤ a.inUse + count
  · rw [if_neg hzero, if_pos hword] at hb
    rcases hb with ⟨start, h⟩ | ⟨e, h⟩ <;> cases h
    exact .inl rfl
  rw [if_neg hzero, if_neg hword] at hb
  by_cases hone : count = 1 ∧ a.reuse
  · rw [if_pos hone, takeOne_apply] at hb
    refine .inr ?_
    rcases htake : a.takeFree with ⟨_ | id, c⟩
    · rw [htake] at hb
      dsimp only at hb
      rcases hextend 1 c with ⟨e, he⟩ | he
      all_goals
        rw [he] at hb
        rcases hb with ⟨start, h⟩ | ⟨e, h⟩ <;> cases h
        rfl
    · rw [htake] at hb
      rcases hb with ⟨start, h⟩ | ⟨e, h⟩ <;> cases h
      rfl
  · rw [if_neg hone] at hb
    refine .inl ?_
    rcases hextend count a with ⟨e, he⟩ | he
    all_goals
      rw [he] at hb
      rcases hb with ⟨start, h⟩ | ⟨e, h⟩ <;> cases h
      rfl

theorem Skipping.putBack (h : a.Skipping) (c : Allocation) : (a.putBack c).Skipping := by
  have hrest : Skipping { a with
      live := a.live.filter (·.start != c.start), inUse := a.inUse - c.count } :=
    h.of_scopes rfl
  unfold Allocator.putBack
  dsimp only
  split
  · exact hrest.updateScope (h.outward_lt _) (fun j => h.passed _ j h.top_lt)
      fun hlt => absurd hlt (Nat.lt_irrefl _)
  · exact hrest

theorem Skipping.closeSegment (h : a.Skipping) : a.closeSegment.Skipping :=
  h.updateScope (h.outward_lt _) (fun j => h.passed _ j h.top_lt) fun _ _ => rfl

theorem Skipping.startArea (h : a.Skipping) : a.startArea.Skipping := by
  have hlen : a.startArea.scopes.length = a.scopes.length + 1 := by
    simp [Allocator.startArea]
  have hpos := List.length_pos_iff.mpr h.rooted
  have hold : ∀ {i}, i < a.scopes.length → a.startArea.scope i = a.scope i := by
    intro i hi
    unfold scope Allocator.startArea
    simp [List.getD_eq_getElem?_getD, List.getElem?_append_left hi]
  have hnew : a.startArea.scope a.scopes.length = { outward := a.scopes.length - 1 } := by
    unfold scope Allocator.startArea
    simp [List.getD_eq_getElem?_getD]
  refine ⟨?_, fun i hi => ?_, fun i j hi hj hji => ?_⟩
  · exact List.length_pos_iff.mp (by omega)
  · rcases Nat.lt_trichotomy i a.scopes.length with hlt | rfl | hgt
    · rw [hold hlt]
      exact h.outward_lt i hi
    · rw [hnew]
      show a.scopes.length - 1 < a.scopes.length
      omega
    · rw [scope_of_le (by omega)]
      exact hi
  · rcases Nat.lt_or_eq_of_le (Nat.le_of_lt_succ (hlen ▸ hi)) with hlt | rfl
    · rw [hold hlt] at hj
      rw [hold (by omega)]
      exact h.passed i j hlt hj hji
    · rw [hnew] at hj
      have : a.scopes.length - 1 < j := hj
      omega

theorem Skipping.closeArea (h : a.Skipping) (hopen : 2 ≤ a.scopes.length) :
    a.closeArea.Skipping := by
  have htop := h.top_lt
  let c : Allocator := { a with scopes := a.scopes.dropLast }
  have hlen : c.scopes.length = a.top := List.length_dropLast
  have htopPos : 0 < a.top := by
    unfold top
    omega
  have hscope : ∀ {i}, i < a.top → c.scope i = a.scope i := by
    intro i hi
    rw [scope_of_lt (by omega), scope_of_lt (by omega)]
    exact List.getElem_dropLast _
  have hctop : c.top < a.top := by
    unfold top at hlen ⊢
    omega
  have hc : c.Skipping := by
    refine ⟨List.length_pos_iff.mp (by omega), fun i hi => ?_, fun i j hi hj hji => ?_⟩
    · by_cases hit : i < a.top
      · rw [hscope hit]
        exact h.outward_lt i hi
      · rw [scope_of_le (by omega)]
        exact hi
    · rw [hscope (by omega)] at hj ⊢
      exact h.passed i j (by omega) hj hji
  refine hc.updateScope (fun hpos => ?_) (fun j hj hjt => ?_)
    fun hlt => absurd hlt (Nat.lt_irrefl _)
  · exact Nat.lt_of_le_of_lt (Nat.min_le_right _ _) (hc.outward_lt _ hpos)
  · -- one of the two pointers leads behind the scope at `j`
    change min (a.scope a.top).outward (c.scope c.top).outward < j at hj
    change j < c.top at hjt
    by_cases hinner : (a.scope a.top).outward < j
    · rw [hscope (by omega)]
      exact h.passed a.top j htop hinner (by omega)
    · exact hc.passed c.top j hc.top_lt (by omega) hjt

theorem skipping_withCapacity (c : Nat) (mayExtend : Bool) :
    (withCapacity c mayExtend).Skipping := by
  refine ⟨List.cons_ne_nil _ _, fun i hi => ?_, fun i j hi _ hji => ?_⟩
  · rw [scope_of_le hi]
    exact hi
  · have : i < 1 := hi
    omega

/-- One request keeps the pointers in order. -/
theorem skipping_serve (h : a.Skipping) (r : Request) : (a.serve r).Skipping := by
  cases r with
  | allocate name count =>
    rcases scopes_allocate a name count with hs | hs
    · exact h.of_scopes hs
    · exact h.searched.of_scopes hs
  | release address =>
    rcases serve_release a address with ⟨-, hb⟩ | ⟨c, -, -, -, hb⟩
    · rw [hb]; exact h
    · rw [hb]; exact h.putBack c
  | startArea => exact h.startArea
  | nextSegment =>
    rcases serve_nextSegment a with ⟨-, hb⟩ | ⟨-, hb⟩
    · rw [hb]; exact h
    · rw [hb]; exact h.closeSegment
  | endArea =>
    rcases serve_endArea a with ⟨-, hb⟩ | ⟨hopen, hb⟩
    · rw [hb]; exact h
    · rw [hb]; exact h.closeArea hopen
  | setReuse reuse => exact h.of_scopes rfl
  | reset => exact (skipping_withCapacity 0 true).of_scopes rfl

theorem skipping_serveAll (h : a.Skipping) (rs : List Request) : (a.serveAll rs).Skipping := by
  induction rs generalizing a with
  | nil => exact h
  | cons r rs ih => exact ih (skipping_serve h r)

/-! ## 7. Every reachable state -/

/-- The search in the state `a` is the plain scan. -/
structure SearchesAll (a : Allocator) : Prop where
  /-- Both find the same address, or nothing. -/
  found : a.takeFree.1 = a.scan.1
  found_none : a.takeFree.1 = none ↔ ∀ s ∈ a.scopes, s.allowed = []
  /-- What is found is taken, and nothing else changes but the pointer of the innermost scope. -/
  taken : ∃ k, a.takeFree.2 = a.scan.2.updateScope a.top ({ · with outward := k })
  outward_lt : ∀ i, 0 < i → i < a.scopes.length → (a.scope i).outward < i
  /-- The loop ends, and where the search says. -/
  ends : ∀ i, 0 < i → i < a.scopes.length → a.Leads i (a.search a.scopes.length i)

/-- In every state that requests lead to, the search along the pointers finds what a look at every
    scope would find. -/
theorem takeFree_scan (c : Nat) (mayExtend : Bool) (rs : List Request) :
    ((withCapacity c mayExtend).serveAll rs).SearchesAll := by
  have h := skipping_serveAll (skipping_withCapacity c mayExtend) rs
  generalize (withCapacity c mayExtend).serveAll rs = a at h
  obtain ⟨k, htake⟩ := h.takeFree_eq
  have hfound : a.takeFree.1 = a.scan.1 := by rw [htake]
  exact
    { found := hfound
      found_none := by rw [hfound, scan_eq_none]
      taken := ⟨k, by rw [htake]⟩
      outward_lt := fun i hi _ => h.outward_lt i hi
      ends := fun i hi hlt => leads_search h hi (Nat.le_of_lt hlt) }

end QirProfile.Allocator
