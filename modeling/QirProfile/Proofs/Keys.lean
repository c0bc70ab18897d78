import Mathlib.Data.List.Nodup

/-!
# Lists of entries with keys

Where the keys are distinct, a look-up finds every entry, whatever the order of the entries.
-/

namespace QirProfile

variable {α β γ : Type} [BEq α] [LawfulBEq α] {l : List (α × β)} {k : α} {b : β}

omit [LawfulBEq α] in
theorem lookup_cons_ite {k' : α} :
    ((k', b) :: l).lookup k = if k == k' then some b else l.lookup k := by
  rw [List.lookup_cons]
  cases k == k' <;> rfl

theorem mem_of_lookup (h : l.lookup k = some b) : (k, b) ∈ l := by
  obtain ⟨l₁, l₂, rfl, -⟩ := List.lookup_eq_some_iff.mp h
  simp

/-- Where keys are distinct, every entry is found. -/
theorem lookup_of_mem (hkeys : (l.map Prod.fst).Nodup) (h : (k, b) ∈ l) : l.lookup k = some b := by
  induction l with
  | nil => cases h
  | cons x l ih =>
    obtain ⟨k', b'⟩ := x
    simp only [List.map_cons, List.nodup_cons] at hkeys
    rcases List.mem_cons.mp h with heq | hl
    · cases heq
      simp
    · have hne : (k == k') = false := by
        rw [beq_eq_false_iff_ne]
        rintro rfl
        exact hkeys.1 (List.mem_map.mpr ⟨_, hl, rfl⟩)
      rw [List.lookup_cons, hne]
      exact ih hkeys.2 hl

theorem lookup_reverse (hkeys : (l.map Prod.fst).Nodup) : l.reverse.lookup k = l.lookup k := by
  have hreverse : (l.reverse.map Prod.fst).Nodup := by
    rw [List.map_reverse]
    exact List.nodup_reverse.mpr hkeys
  cases hl : l.lookup k with
  | some b => exact lookup_of_mem hreverse (List.mem_reverse.mpr (mem_of_lookup hl))
  | none =>
    cases hr : l.reverse.lookup k with
    | none => rfl
    | some b =>
      rw [lookup_of_mem hkeys (List.mem_reverse.mp (mem_of_lookup hr))] at hl
      cases hl

theorem lookup_eq_none : l.lookup k = none ↔ k ∉ l.map Prod.fst := by
  rw [List.lookup_eq_none_iff]
  simp only [bne_iff_ne, List.mem_map, not_exists, not_and]
  exact ⟨fun h p hp hk => h p hp hk.symm, fun h p hp hk => h p hp hk.symm⟩

omit [LawfulBEq α] in
theorem lookup_mapValues (f : β → γ) :
    (l.map fun e => (e.1, f e.2)).lookup k = (l.lookup k).map f := by
  induction l with
  | nil => rfl
  | cons e l ih =>
    rw [List.map_cons, List.lookup_cons, List.lookup_cons, ih]
    split <;> rfl

theorem eq_of_lookup {l' : List (α × β)} (hkeys : (l.map Prod.fst).Nodup)
    (hsame : l.map Prod.fst = l'.map Prod.fst) (h : ∀ k ∈ l.map Prod.fst, l.lookup k = l'.lookup k) :
    l = l' := by
  induction l generalizing l' with
  | nil => exact (List.map_eq_nil_iff.mp hsame.symm).symm
  | cons e l ih =>
    obtain ⟨e', l', rfl, hfirst, hrest⟩ := List.map_eq_cons_iff.mp hsame.symm
    obtain ⟨hnew, hrestKeys⟩ := List.nodup_cons.mp hkeys
    obtain ⟨k, b⟩ := e
    obtain ⟨k', b'⟩ := e'
    obtain rfl : k' = k := hfirst
    have hb := h k' List.mem_cons_self
    rw [List.lookup_cons_self, List.lookup_cons_self] at hb
    obtain rfl := Option.some.inj hb
    congr 1
    refine ih hrestKeys hrest.symm fun j hj => ?_
    have hne : (j == k') = false := beq_eq_false_iff_ne.mpr fun heq => hnew (heq ▸ hj)
    have hl := h j (List.mem_cons_of_mem _ hj)
    rwa [List.lookup_cons, List.lookup_cons, hne] at hl

end QirProfile
