import QirProfile.Proofs.Document.Maps
import QirProfile.Proofs.Steps
import QirProfile.Settings.Section

/-!
# What sections read and write

A section reads its values from a map by key, and writes them as a map that is sorted by key.
-/

namespace QirProfile

/-! ## 1. Kinds of settings -/

namespace SettingKind

/-- Whether a value is one of the kind. -/
def admits : SettingKind → SettingValue → Bool
  | flag, .flag _ | text, .text _ | texts, .texts _ => true
  | k@(unsigned _), .number n | k@(signed _), .number n => k.holds n
  | _, _ => false

theorem mapM_readItem {ds : List Datum} {items : List String} :
    ds.mapM readItem = .ok items ↔ ds = items.map .text := by
  induction ds generalizing items with
  | nil =>
    rw [List.mapM_nil]
    constructor
    · intro h
      cases h
      rfl
    · intro h
      rw [List.map_eq_nil_iff.mp h.symm]
      rfl
  | cons d ds ih =>
    rw [List.mapM_cons]
    constructor
    · intro h
      cases d with
      | text s =>
        cases hrest : ds.mapM readItem with
        | error e =>
          rw [hrest] at h
          cases h
        | ok rest =>
          rw [hrest] at h
          cases h
          rw [ih.mp hrest]
          rfl
      | _ => cases h
    · intro h
      obtain ⟨s, rest, rfl, rfl, hds⟩ := List.map_eq_cons_iff.mp h.symm
      rw [ih.mpr hds.symm]
      rfl

theorem read_iff {k : SettingKind} {d : Datum} {v : SettingValue} :
    k.read d = .ok v ↔ k.admits v = true ∧ d = v.datum := by
  constructor
  · intro h
    unfold read at h
    split at h
    · cases h
      exact ⟨rfl, rfl⟩
    · split at h
      · rename_i hholds
        cases h
        exact ⟨hholds, rfl⟩
      · cases h
    · split at h
      · rename_i hholds
        cases h
        exact ⟨hholds, rfl⟩
      · cases h
    · cases h
      exact ⟨rfl, rfl⟩
    · rename_i items
      cases hitems : items.mapM readItem with
      | error e =>
        rw [hitems] at h
        cases h
      | ok strings =>
        rw [hitems] at h
        cases h
        exact ⟨rfl, congrArg Datum.list (mapM_readItem.mp hitems)⟩
    · cases h
  · rintro ⟨hadmits, rfl⟩
    cases v with
    | flag b =>
      cases k with
      | flag => rfl
      | _ => cases hadmits
    | number n =>
      cases k with
      | unsigned bits => exact if_pos hadmits
      | signed bits => exact if_pos hadmits
      | _ => cases hadmits
    | text s =>
      cases k with
      | text => rfl
      | _ => cases hadmits
    | texts items =>
      cases k with
      | texts =>
        change ((items.map Datum.text).mapM readItem).map SettingValue.texts = _
        rw [mapM_readItem.mpr rfl]
        rfl
      | _ => cases hadmits

end SettingKind

theorem SettingValue.datum_injective {v w : SettingValue} (h : v.datum = w.datum) : v = w := by
  cases v with
  | texts items =>
    cases w with
    | texts others =>
      have hitems : items.map Datum.text = others.map Datum.text := Datum.list.inj h
      rw [List.map_injective_iff.mpr (fun _ _ => Datum.text.inj) hitems]
    | _ => cases h
  | _ => cases w <;> cases h; rfl

/-! ## 2. Values of a section -/

namespace Values

variable {v : Values} {name : String}

/-- How the value of a name is written, if it has one. -/
def datum? (v : Values) (name : String) : Option Datum := (v.lookup name).map (·.datum)

theorem lookup_entries (h : (v.map Prod.fst).Nodup) (name : String) :
    (entries v).lookup name = v.datum? name := by
  have hkeys : ((v.map fun e => (e.1, e.2.datum)).map Prod.fst).Nodup := by
    rw [List.map_map]
    exact h
  rw [datum?, ← lookup_mapValues]
  exact Datum.lookup_sorted hkeys name

theorem sortedKeys_entries (v : Values) : ((entries v).map Prod.fst).Pairwise (· < ·) :=
  Datum.sortedKeys_sorted _

end Values

namespace Section

variable {s : Section} {f : Field} {v w : Values} {m : List (String × Datum)}

/-- The fields have names of their own, and defaults of their kinds. -/
structure WellFormed (s : Section) : Prop where
  names : (s.fields.map (·.name)).Nodup
  defaults : ∀ f ∈ s.fields, f.kind.admits f.default = true

instance : DecidablePred WellFormed := fun s =>
  decidable_of_iff ((s.fields.map (·.name)).Nodup ∧ ∀ f ∈ s.fields, f.kind.admits f.default = true)
    ⟨fun h => ⟨h.1, h.2⟩, fun h => ⟨h.names, h.defaults⟩⟩

/-- The values are those of the fields, each of the kind of its field. -/
structure Fits (s : Section) (v : Values) : Prop where
  keys : v.map Prod.fst = s.fields.map (·.name)
  kinds : ∀ f ∈ s.fields, (v.lookup f.name).any f.kind.admits = true

instance (s : Section) : DecidablePred s.Fits := fun v =>
  decidable_of_iff (v.map Prod.fst = s.fields.map (·.name) ∧
      ∀ f ∈ s.fields, (v.lookup f.name).any f.kind.admits = true)
    ⟨fun h => ⟨h.1, h.2⟩, fun h => ⟨h.keys, h.kinds⟩⟩

theorem Fits.keys_nodup (h : s.Fits v) (hs : s.WellFormed) : (v.map Prod.fst).Nodup :=
  h.keys ▸ hs.names

theorem Fits.lookup (h : s.Fits v) (hf : f ∈ s.fields) :
    ∃ x, v.lookup f.name = some x ∧ f.kind.admits x = true :=
  (Option.any_eq_true _ _).mp (h.kinds f hf)

theorem Fits.ext (hs : s.WellFormed) (hv : s.Fits v) (hw : s.Fits w)
    (h : ∀ f ∈ s.fields, v.datum? f.name = w.datum? f.name) : v = w := by
  refine eq_of_lookup (hv.keys_nodup hs) (hv.keys.trans hw.keys.symm) fun k hk => ?_
  rw [hv.keys] at hk
  obtain ⟨f, hf, rfl⟩ := List.mem_map.mp hk
  exact Option.map_injective (fun _ _ => SettingValue.datum_injective) (h f hf)

theorem lookup_fields (hs : s.WellFormed) (g : Field → SettingValue) (hf : f ∈ s.fields) :
    List.lookup f.name (s.fields.map fun f => (f.name, g f)) = some (g f) := by
  refine lookup_of_mem ?_ (List.mem_map.mpr ⟨f, hf, rfl⟩)
  rw [List.map_map]
  exact hs.names

theorem fits_fields (hs : s.WellFormed) {g : Field → SettingValue}
    (hg : ∀ f ∈ s.fields, f.kind.admits (g f) = true) :
    s.Fits (s.fields.map fun f => (f.name, g f)) where
  keys := by rw [List.map_map]; rfl
  kinds f hf := by
    rw [lookup_fields hs g hf]
    exact hg f hf

theorem fits_defaults (hs : s.WellFormed) : s.Fits s.defaults :=
  fits_fields hs hs.defaults

/-! ## 3. Reading a section -/

theorem find?_field (hs : s.WellFormed) (hf : f ∈ s.fields) :
    s.fields.find? (·.name == f.name) = some f := by
  obtain ⟨g, hg⟩ := Option.isSome_iff_exists.mp
    (List.find?_isSome (p := (·.name == f.name)).mpr ⟨f, hf, beq_self_eq_true f.name⟩)
  have hname : g.name = f.name := by simpa using List.find?_some hg
  rw [hg, List.inj_on_of_nodup_map hs.names (List.mem_of_find?_eq_some hg) hf hname]

theorem readEntries_ok {read : Values} (hs : s.WellFormed) (hf : f ∈ s.fields)
    (h : s.readEntries m = .ok read) :
    match m.lookup f.name with
    | none => read.lookup f.name = none
    | some d => ∃ x, f.kind.read d = .ok x ∧ read.lookup f.name = some x := by
  induction m generalizing read with
  | nil =>
    cases h
    rfl
  | cons e rest ih =>
    obtain ⟨name, d⟩ := e
    rw [readEntries] at h
    rw [lookup_cons_ite]
    split at h
    · rename_i hnone
      have hne : f.name ≠ name := by
        rintro rfl
        rw [find?_field hs hf] at hnone
        cases hnone
      simpa [hne] using ih h
    · rename_i g hg
      obtain ⟨x, hx, h⟩ := except_bind_ok.mp h
      obtain ⟨others, hothers, h⟩ := except_bind_ok.mp h
      cases h
      by_cases hname : f.name = name
      · subst hname
        rw [find?_field hs hf] at hg
        cases hg
        simpa using hx
      · simpa [hname, lookup_cons_ite] using ih hothers

theorem readEntries_exists (h : ∀ name d f, (name, d) ∈ m → s.fields.find? (·.name == name) = some f →
    ∃ x, f.kind.read d = .ok x) : ∃ read, s.readEntries m = .ok read := by
  induction m with
  | nil => exact ⟨[], rfl⟩
  | cons e rest ih =>
    obtain ⟨name, d⟩ := e
    obtain ⟨read, hread⟩ := ih fun n d f hmem => h n d f (List.mem_cons_of_mem _ hmem)
    rw [readEntries]
    cases hfind : s.fields.find? (·.name == name) with
    | none => exact ⟨read, hread⟩
    | some f =>
      obtain ⟨x, hx⟩ := h name d f List.mem_cons_self hfind
      exact ⟨(name, x) :: read, except_bind_ok.mpr ⟨x, hx, except_bind_ok.mpr ⟨read, hread, rfl⟩⟩⟩

theorem fits_of_read (hs : s.WellFormed) (h : s.read (.map m) = .ok w) :
    s.Fits w ∧ ∀ f ∈ s.fields, w.datum? f.name = some ((m.lookup f.name).getD f.default.datum) := by
  obtain ⟨read, hread, rfl⟩ : ∃ read, s.readEntries m = .ok read ∧ s.complete read = w := by
    change (s.readEntries m).map s.complete = .ok w at h
    cases hread : s.readEntries m with
    | error e =>
      rw [hread] at h
      cases h
    | ok read =>
      rw [hread] at h
      cases h
      exact ⟨read, rfl, rfl⟩
  have hfield : ∀ f ∈ s.fields, f.kind.admits ((read.lookup f.name).getD f.default) = true ∧
      ((read.lookup f.name).getD f.default).datum = (m.lookup f.name).getD f.default.datum := by
    intro f hf
    have hlookup := readEntries_ok hs hf hread
    cases hm : m.lookup f.name with
    | none =>
      rw [hm] at hlookup
      rw [hlookup]
      exact ⟨hs.defaults f hf, rfl⟩
    | some d =>
      rw [hm] at hlookup
      obtain ⟨x, hx, hlookup⟩ := hlookup
      obtain ⟨hadmits, rfl⟩ := SettingKind.read_iff.mp hx
      rw [hlookup]
      exact ⟨hadmits, rfl⟩
  refine ⟨fits_fields hs fun f hf => (hfield f hf).1, fun f hf => ?_⟩
  rw [Values.datum?, complete, lookup_fields hs _ hf, ← (hfield f hf).2]
  rfl

theorem read_map_iff (hs : s.WellFormed) (hm : (m.map Prod.fst).Nodup) :
    s.read (.map m) = .ok w ↔ s.Fits w ∧
      ∀ f ∈ s.fields, w.datum? f.name = some ((m.lookup f.name).getD f.default.datum) := by
  refine ⟨fits_of_read hs, fun ⟨hw, hdata⟩ => ?_⟩
  obtain ⟨read, hread⟩ : ∃ read, s.readEntries m = .ok read := by
    refine readEntries_exists fun name d f hmem hfind => ?_
    have hf := List.mem_of_find?_eq_some hfind
    obtain rfl : f.name = name := by simpa using List.find?_some hfind
    obtain ⟨x, hx, hadmits⟩ := hw.lookup hf
    have hd := hdata f hf
    rw [Values.datum?, hx, lookup_of_mem hm hmem] at hd
    exact ⟨x, SettingKind.read_iff.mpr ⟨hadmits, (Option.some.inj hd).symm⟩⟩
  have hok : s.read (.map m) = .ok (s.complete read) := by
    change (s.readEntries m).map s.complete = _
    rw [hread]
    rfl
  obtain ⟨hfits, hsame⟩ := fits_of_read hs hok
  rw [hok, hfits.ext hs hw fun f hf => (hsame f hf).trans (hdata f hf).symm]

/-- Entries of a map count before the values that there are. -/
theorem read_merge_iff (hs : s.WellFormed) (hv : s.Fits v) (hm : (m.map Prod.fst).Nodup) :
    s.read (.map (Datum.merge (Values.entries v) m)) = .ok w ↔ s.Fits w ∧
      ∀ f ∈ s.fields, w.datum? f.name = (m.lookup f.name).or (v.datum? f.name) := by
  rw [read_map_iff hs (Datum.nodup_of_sortedKeys (Datum.sortedKeys_merge (Values.sortedKeys_entries v)))]
  refine and_congr_right fun _ => forall₂_congr fun f hf => ?_
  rw [Datum.lookup_merge hm, Values.lookup_entries (hv.keys_nodup hs)]
  obtain ⟨x, hx, -⟩ := hv.lookup hf
  rw [Values.datum?, Values.datum?, hx]
  cases m.lookup f.name <;> rfl

end Section

end QirProfile
