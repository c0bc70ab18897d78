import Mathlib.Data.List.Nodup
import Mathlib.Data.String.Basic
import QirProfile.Document.Datum
import QirProfile.Proofs.Keys

/-!
# Maps of documents
-/

namespace QirProfile

/-! ## 1. Maps sorted by key -/

namespace Datum

variable {m base update : List (String × Datum)} {key k : String} {d : Datum}

theorem lookup_insertSorted (key : String) (d : Datum) (m : List (String × Datum)) (k : String) :
    (insertSorted key d m).lookup k = if k = key then some d else m.lookup k := by
  induction m with
  | nil => simp [insertSorted, lookup_cons_ite]
  | cons e rest ih =>
    obtain ⟨name, old⟩ := e
    unfold insertSorted
    split
    · simp [lookup_cons_ite]
    split
    · rename_i hname
      subst hname
      by_cases h : k = key <;> simp [lookup_cons_ite, h]
    · rename_i hne
      rw [lookup_cons_ite, lookup_cons_ite, ih]
      by_cases h : k = name
      · subst h
        have hkey : k ≠ key := fun hk => hne hk.symm
        simp [hkey]
      · simp [h]

theorem mem_keys_insertSorted {x : String} :
    x ∈ (insertSorted key d m).map Prod.fst ↔ x = key ∨ x ∈ m.map Prod.fst := by
  induction m with
  | nil => simp [insertSorted]
  | cons e rest ih =>
    obtain ⟨name, old⟩ := e
    unfold insertSorted
    split
    · simp
    split
    · rename_i hname
      simp [hname]
    · rw [List.map_cons, List.mem_cons, ih, List.map_cons, List.mem_cons]
      exact or_left_comm

theorem sortedKeys_insertSorted (h : (m.map Prod.fst).Pairwise (· < ·)) :
    ((insertSorted key d m).map Prod.fst).Pairwise (· < ·) := by
  induction m with
  | nil => simp [insertSorted]
  | cons e rest ih =>
    obtain ⟨name, old⟩ := e
    obtain ⟨hfirst, hrest⟩ := List.pairwise_cons.mp h
    unfold insertSorted
    split
    · rename_i hlt
      refine List.pairwise_cons.mpr ⟨fun x hx => ?_, h⟩
      rcases List.mem_cons.mp hx with rfl | hx
      · exact hlt
      · exact hlt.trans (hfirst x hx)
    split
    · rename_i hname
      exact List.pairwise_cons.mpr ⟨hname ▸ hfirst, hrest⟩
    · rename_i hnot hne
      refine List.pairwise_cons.mpr ⟨fun x hx => ?_, ih hrest⟩
      rcases mem_keys_insertSorted.mp hx with rfl | hx
      · exact lt_of_le_of_ne (not_lt.mp hnot) (Ne.symm hne)
      · exact hfirst x hx

/-- A map laid over a sorted one, entry by entry. -/
def merge (base update : List (String × Datum)) : List (String × Datum) :=
  update.foldl (fun m (k, d) => insertSorted k d m) base

theorem sorted_eq_merge (entries : List (String × Datum)) : sorted entries = merge [] entries := rfl

theorem sortedKeys_merge (h : (base.map Prod.fst).Pairwise (· < ·)) :
    ((merge base update).map Prod.fst).Pairwise (· < ·) := by
  induction update generalizing base with
  | nil => exact h
  | cons e rest ih => exact ih (sortedKeys_insertSorted h)

theorem sortedKeys_sorted (entries : List (String × Datum)) :
    ((sorted entries).map Prod.fst).Pairwise (· < ·) :=
  sortedKeys_merge List.Pairwise.nil

theorem nodup_of_sortedKeys (h : (m.map Prod.fst).Pairwise (· < ·)) : (m.map Prod.fst).Nodup :=
  h.imp fun hlt => ne_of_lt hlt

theorem lookup_merge (h : (update.map Prod.fst).Nodup) (k : String) :
    (merge base update).lookup k = (update.lookup k).or (base.lookup k) := by
  induction update generalizing base with
  | nil => rfl
  | cons e rest ih =>
    obtain ⟨name, d⟩ := e
    obtain ⟨hname, hrest⟩ := List.nodup_cons.mp h
    change (merge (insertSorted name d base) rest).lookup k = _
    rw [ih hrest, lookup_insertSorted, lookup_cons_ite]
    by_cases hk : k = name
    · subst hk
      rw [lookup_eq_none.mpr hname]
      simp
    · simp [hk]

theorem lookup_sorted {entries : List (String × Datum)} (h : (entries.map Prod.fst).Nodup)
    (k : String) : (sorted entries).lookup k = entries.lookup k := by
  rw [sorted_eq_merge, lookup_merge h]
  simp

theorem mem_insertSorted {key : String} {d : Datum} {m : List (String × Datum)}
    {e : String × Datum} (h : e ∈ insertSorted key d m) : e = (key, d) ∨ e ∈ m := by
  induction m with
  | nil => exact .inl (List.mem_singleton.mp h)
  | cons x rest ih =>
    obtain ⟨name, old⟩ := x
    unfold insertSorted at h
    split at h
    · exact List.mem_cons.mp h
    split at h
    · exact (List.mem_cons.mp h).imp_right (List.mem_cons_of_mem _)
    · rcases List.mem_cons.mp h with rfl | h
      · exact .inr List.mem_cons_self
      · exact (ih h).imp_right (List.mem_cons_of_mem _)

theorem mem_merge {base update : List (String × Datum)} {e : String × Datum}
    (h : e ∈ merge base update) : e ∈ update ∨ e ∈ base := by
  induction update generalizing base with
  | nil => exact .inr h
  | cons x rest ih =>
    rcases ih h with h | h
    · exact .inl (List.mem_cons_of_mem _ h)
    · rcases mem_insertSorted h with rfl | h
      · exact .inl List.mem_cons_self
      · exact .inr h

end Datum

/-! ## 2. What a document says -/

namespace Datum

/-- What a map has under a key. -/
def under? : Datum → String → Option Datum
  | map entries, key => entries.lookup key
  | _, _ => none

/-- The keys of a map. -/
def keys : Datum → List String
  | map entries => entries.map Prod.fst
  | _ => []

/-- Whether a text is an item of a list. -/
def lists : Datum → String → Bool
  | list items, s => items.any fun
    | text t => t == s
    | _ => false
  | _, _ => false

/-- Keys stand once in a document and in each of its sections. -/
structure OwnKeys (doc : Datum) : Prop where
  top : doc.keys.Nodup
  inner : ∀ key d, doc.under? key = some d → d.keys.Nodup

/-- What a document says about a field of a section. -/
def setting? (doc : Datum) (key name : String) : Option Datum :=
  (doc.under? key).bind (·.under? name)

@[simp] theorem lists_texts (ids : List String) (id : String) :
    (list (ids.map text)).lists id = ids.contains id := by
  rw [List.contains_eq_any_beq, lists, List.any_map]
  exact congrArg ids.any (funext fun t => Bool.beq_comm)

/-! ## 3. Values that are the same -/

mutual

/-- Whether two values are the same. -/
def same : Datum → Datum → Bool
  | null, null => true
  | bool a, bool b => a == b
  | int m, int n => m == n
  | float a, float b => a == b
  | text s, text t => s == t
  | list ds, list es => sameItems ds es
  | map ds, map es => sameEntries ds es
  | _, _ => false

/-- Whether two lists have the same items. -/
def sameItems : List Datum → List Datum → Bool
  | [], [] => true
  | d :: ds, e :: es => same d e && sameItems ds es
  | _, _ => false

/-- Whether two maps have the same entries. -/
def sameEntries : List (String × Datum) → List (String × Datum) → Bool
  | [], [] => true
  | (k, d) :: ds, (l, e) :: es => k == l && same d e && sameEntries ds es
  | _, _ => false

end

mutual

/-- The comparison of data decides equality. -/
theorem same_iff (d e : Datum) : same d e = true ↔ d = e := by
  cases d with
  | list ds => cases e <;> simp [same, sameItems_iff ds]
  | map ds => cases e <;> simp [same, sameEntries_iff ds]
  | _ => cases e <;> simp [same]

theorem sameItems_iff : ∀ ds es : List Datum, sameItems ds es = true ↔ ds = es
  | [], [] | [], _ :: _ | _ :: _, [] => by simp [sameItems]
  | d :: ds, e :: es => by simp [sameItems, same_iff d, sameItems_iff ds]

theorem sameEntries_iff : ∀ ds es : List (String × Datum), sameEntries ds es = true ↔ ds = es
  | [], [] | [], _ :: _ | _ :: _, [] => by simp [sameEntries]
  | (k, d) :: ds, (l, e) :: es => by simp [sameEntries, same_iff d, sameEntries_iff ds]

end

instance : DecidableEq Datum := fun d e => decidable_of_iff _ (same_iff d e)

end Datum

end QirProfile
