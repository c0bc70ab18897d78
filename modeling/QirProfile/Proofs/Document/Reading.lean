import QirProfile.Document.Yaml.Read
import QirProfile.Proofs.Document.Maps

/-!
# Keys of what is read

Maps that are read from a text are sorted, so their keys stand once.
-/

namespace QirProfile

namespace Yaml

open Datum

variable {α β : Type} {d : Document} {n n' : Nat} {v : Datum}

theorem follows_bind {x : Following α} {f : α → Following β} {b : β}
    (h : (x >>= f) n = some (b, n')) : ∃ a m, x n = some (a, m) ∧ f a m = some (b, n') := by
  change (x n >>= fun y => f y.1 y.2) = some (b, n') at h
  obtain ⟨⟨a, m⟩, hx, hf⟩ := Option.bind_eq_some_iff.mp h
  exact ⟨a, m, hx, hf⟩

theorem follows_mapM {f : α → Following β} {as : List α} {bs : List β}
    (h : as.mapM f n = some (bs, n')) {b : β} (hb : b ∈ bs) :
    ∃ a ∈ as, ∃ m m', f a m = some (b, m') := by
  induction as generalizing n bs with
  | nil =>
    rw [List.mapM_nil] at h
    cases h
    cases hb
  | cons a as ih =>
    rw [List.mapM_cons] at h
    obtain ⟨c, m, hc, h⟩ := follows_bind h
    obtain ⟨cs, m', hcs, h⟩ := follows_bind h
    cases h
    rcases List.mem_cons.mp hb with rfl | hb
    · exact ⟨a, List.mem_cons_self, n, m, hc⟩
    · obtain ⟨x, hx, hf⟩ := ih hcs hb
      exact ⟨x, List.mem_cons_of_mem _ hx, hf⟩

theorem keys_resolve? {s : String} (h : resolve? s = some v) : v.keys = [] := by
  have hdouble : (((double? s.toList).map Datum.float).getD (.text s)).keys = [] := by
    cases double? s.toList <;> rfl
  unfold resolve? at h
  split at h
  · cases h; rfl
  split at h
  · cases h; rfl
  split at h
  · cases h; rfl
  split at h
  · split at h
    · cases h; rfl
    split at h
    · cases h
    · cases h; exact hdouble
  · split at h
    · cases h; rfl
    split at h
    · cases h; rfl
    · cases h; exact hdouble

theorem keys_read? {k : Kind} {s : String} (h : k.read? s = some v) : v.keys = [] := by
  unfold Kind.read? at h
  split at h
  · cases h; rfl
  · cases h; rfl
  · split at h
    · cases h; rfl
    · obtain ⟨bits, -, rfl⟩ := Option.map_eq_some_iff.mp h
      rfl
  · split at h
    · cases h; rfl
    · cases h
  · cases h

theorem keys_scalarValue? {tag : Option (List UInt8)} {plain : Bool} {s : String}
    (h : scalarValue? tag plain s = some v) : v.keys = [] := by
  have hplain : ∀ {v}, (if plain then resolve? s else some (.text s)) = some v → v.keys = [] := by
    intro v h
    split at h
    · exact keys_resolve? h
    · cases h; rfl
  unfold scalarValue? at h
  split at h
  · exact hplain h
  · split at h
    · exact keys_read? h
    · split at h
      · split at h
        · cases h
        · exact hplain h
      · cases h; rfl

theorem valueWith_cases {inner : Option (Node → Following Datum)} {node : Node}
    (h : valueWith d inner node n = some (v, n')) : v.keys = [] ∨
      ∃ value entries, inner = some value ∧ v = .map (Datum.sorted entries) ∧
        ∀ e ∈ entries, ∃ part m m', value part m = some (e.2, m') := by
  unfold valueWith at h
  obtain ⟨target, m, -, h⟩ := follows_bind h
  cases target with
  | reference number => cases h
  | scalar tag plain text =>
    simp only at h
    cases hv : scalarValue? tag plain text with
    | none =>
      rw [hv] at h
      cases h
    | some x =>
      rw [hv] at h
      cases h
      exact .inl (keys_scalarValue? hv)
  | list tag items =>
    cases inner with
    | none => cases h
    | some value =>
      simp only at h
      split at h
      · cases h
      · obtain ⟨_, _, _, h⟩ := follows_bind h
        cases h
        exact .inl rfl
  | map tag parts =>
    cases inner with
    | none => cases h
    | some value =>
      simp only at h
      split at h
      · cases h
      · obtain ⟨entries, m', hentries, h⟩ := follows_bind h
        cases h
        refine .inr ⟨value, entries, rfl, rfl, fun e he => ?_⟩
        obtain ⟨⟨k, part⟩, -, m₁, m₂, hpart⟩ := follows_mapM hentries he
        obtain ⟨key, m₃, -, hpart⟩ := follows_bind hpart
        obtain ⟨x, m₄, hx, hpart⟩ := follows_bind hpart
        cases hpart
        exact ⟨part, _, _, hx⟩

theorem keys_value {depth : Nat} {node : Node} (h : value d depth node n = some (v, n')) :
    v.keys.Nodup := by
  have hcases : ∀ inner, valueWith d inner node n = some (v, n') → v.keys.Nodup := by
    intro inner h
    rcases valueWith_cases h with hnone | ⟨_, entries, -, rfl, -⟩
    · rw [hnone]
      exact List.nodup_nil
    · exact Datum.nodup_of_sortedKeys (Datum.sortedKeys_sorted entries)
  cases depth with
  | zero => exact hcases _ h
  | succ depth => exact hcases _ h

/-- In what was read no map has a key twice. -/
theorem ownKeys_read? {text : String} (h : read? text = some v) : v.OwnKeys := by
  obtain ⟨document, depth, n', hvalue⟩ :
      ∃ (document : Document) (depth : Nat) (n' : Nat),
        value document (depth + 1) document.root 0 = some (v, n') := by
    unfold read? at h
    split at h
    · cases h
    · obtain ⟨tokens, -, h⟩ := Option.bind_eq_some_iff.mp h
      obtain ⟨document, -, h⟩ := Option.bind_eq_some_iff.mp h
      obtain ⟨⟨datum, n'⟩, hvalue, h⟩ := Option.bind_eq_some_iff.mp h
      cases h
      exact ⟨document, 127, n', hvalue⟩
  refine ⟨keys_value hvalue, fun key x hx => ?_⟩
  rcases valueWith_cases hvalue with hnone | ⟨inner, entries, hinner, rfl, hparts⟩
  · cases v with
    | map entries => 
      rw [show entries = [] from List.map_eq_nil_iff.mp hnone] at hx
      cases hx
    | _ => cases hx
  · have hmem := (Datum.mem_merge (mem_of_lookup hx)).resolve_right (List.not_mem_nil)
    obtain ⟨part, m, m', hpart⟩ := hparts _ hmem
    cases hinner
    exact keys_value hpart

end Yaml

end QirProfile
