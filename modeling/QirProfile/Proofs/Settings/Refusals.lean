import QirProfile.Proofs.Document.Reading
import QirProfile.Proofs.Settings.Documents

/-!
# Updates that are refused

A parameter that is refused leaves the store as it was. A document is taken entry by entry, and what
was taken in front of the refused entry stays (`StopsBehind`), as do components that a list has
switched off in front of an unknown one. So a refused document leaves the store as it was exactly if
that part of it repeats what is in force.
-/

namespace QirProfile.Settings

variable {s t u : Settings} {e : CompileError}

/-! ## 1. Where a document stops -/

theorem take_error {f : Settings → Except CompileError Settings} (h : take f s = .error e t) :
    f s = .error e ∧ t = s := by
  unfold take at h
  split at h
  · cases h
  · rename_i hf
    cases h
    exact ⟨hf, rfl⟩

theorem loadEntries_append {before : List (String × Datum)} (after : List (String × Datum))
    (h : loadEntries before s = .ok () u) : loadEntries (before ++ after) s = loadEntries after u := by
  induction before generalizing s with
  | nil =>
    cases h
    rfl
  | cons e before ih =>
    obtain ⟨key, d⟩ := e
    rw [loadEntries_cons] at h
    obtain ⟨_, w, hfirst, hlater⟩ := bind_ok h
    rw [List.cons_append, loadEntries_cons, bind_of_ok hfirst, ih hlater]

theorem loadDisabled_texts (ids : List String) : loadDisabled (.list (ids.map .text)) =
    ids.forM fun id => take (·.setActive id false) := by
  unfold loadDisabled
  rw [show Datum.list (ids.map .text) = (SettingValue.texts ids).datum from rfl,
    SettingKind.read_iff.mpr ⟨rfl, rfl⟩]

theorem switchOff_error {ids : List String}
    (h : (ids.forM fun id => take (·.setActive id false)) s = .error e t) :
    ∃ before id after, ids = before ++ id :: after ∧
      (before.forM fun id => take (·.setActive id false)) s = .ok () t ∧
      t.setActive id false = .error e := by
  induction ids generalizing s with
  | nil => cases h
  | cons id ids ih =>
    cases hfirst : take (·.setActive id false) s with
    | error e' s' =>
      obtain ⟨hrefused, rfl⟩ := take_error hfirst
      have hall := (bind_of_error hfirst fun _ => ids.forM fun id => take (·.setActive id false))
      cases hall.symm.trans h
      exact ⟨[], id, ids, rfl, rfl, hrefused⟩
    | ok v w =>
      have hall := (bind_of_ok hfirst fun _ => ids.forM fun id => take (·.setActive id false))
      obtain ⟨before, id', after, rfl, hbefore, hrefused⟩ := ih (hall.symm.trans h)
      refine ⟨id :: before, id', after, rfl, ?_, hrefused⟩
      exact (bind_of_ok hfirst _).trans hbefore

/-- The document is refused with the store `t`: `taken` is what was taken of it. -/
inductive StopsBehind (s t : Settings) (e : CompileError) :
    (entries taken : List (String × Datum)) → Prop
  /-- A section is unknown, or its values are refused. -/
  | atSection (before after : List (String × Datum)) {key : String} {d : Datum}
    (hkey : key ≠ disabledKey) (htaken : loadEntries before s = .ok () t)
    (hrefused : t.loadSection key d = .error e) :
    StopsBehind s t e (before ++ (key, d) :: after) before
  /-- The list of components is no list of texts. -/
  | atList (before after : List (String × Datum)) {d : Datum} {cause : SettingError}
    (htaken : loadEntries before s = .ok () t)
    (hrefused : SettingKind.texts.read d = .error cause) (he : e = .serialization cause.message) :
    StopsBehind s t e (before ++ (disabledKey, d) :: after) before
  /-- A component of the list is unknown; the ones in front of it are switched off. -/
  | atComponent (before after : List (String × Datum)) {ids rest : List String} {id : String}
    (htaken : loadEntries (before ++ [(disabledKey, .list (ids.map .text))]) s = .ok () t)
    (hrefused : t.setActive id false = .error e) :
    StopsBehind s t e (before ++ (disabledKey, .list ((ids ++ id :: rest).map .text)) :: after)
      (before ++ [(disabledKey, .list (ids.map .text))])

section

variable {entries taken : List (String × Datum)}

theorem StopsBehind.loads (h : StopsBehind s t e entries taken) :
    loadEntries taken s = .ok () t := by
  cases h with
  | atSection _ _ _ htaken _ => exact htaken
  | atList _ _ htaken _ _ => exact htaken
  | atComponent _ _ htaken _ => exact htaken

theorem StopsBehind.cons {key : String} {d : Datum} (h : StopsBehind u t e entries taken)
    (hfirst : loadEntries [(key, d)] s = .ok () u) :
    StopsBehind s t e ((key, d) :: entries) ((key, d) :: taken) := by
  have hall := (loadEntries_append taken hfirst).trans h.loads
  cases h with
  | atSection _ after hkey _ hrefused => exact .atSection (_ :: _) after hkey hall hrefused
  | atList _ after _ hrefused he => exact .atList (_ :: _) after hall hrefused he
  | atComponent _ after _ hrefused => exact .atComponent (_ :: _) after hall hrefused

theorem loadEntries_error (h : loadEntries entries s = .error e t) :
    ∃ taken, StopsBehind s t e entries taken := by
  induction entries generalizing s with
  | nil => cases h
  | cons x rest ih =>
    obtain ⟨key, d⟩ := x
    rw [loadEntries_cons] at h
    cases hfirst : (if key = disabledKey then loadDisabled d else take (·.loadSection key d)) s with
    | ok v u =>
      rw [bind_of_ok hfirst] at h
      obtain ⟨taken, hstops⟩ := ih h
      refine ⟨_, hstops.cons ?_⟩
      rw [loadEntries_cons, bind_of_ok hfirst]
      rfl
    | error e' s' =>
      rw [bind_of_error hfirst] at h
      cases h
      split at hfirst
      · rename_i hkey
        subst hkey
        cases hread : SettingKind.texts.read d with
        | error cause =>
          unfold loadDisabled at hfirst
          rw [hread] at hfirst
          cases hfirst
          exact ⟨[], .atList [] rest rfl hread rfl⟩
        | ok w =>
          obtain ⟨hadmits, rfl⟩ := SettingKind.read_iff.mp hread
          cases w with
          | texts ids =>
            rw [show (SettingValue.texts ids).datum = .list (ids.map .text) from rfl,
              loadDisabled_texts] at hfirst
            obtain ⟨before, id, after, rfl, hbefore, hrefused⟩ := switchOff_error hfirst
            refine ⟨_, .atComponent [] rest ?_ hrefused⟩
            rw [List.nil_append, loadEntries_cons, if_pos rfl, loadDisabled_texts]
            exact bind_of_ok hbefore _
          | _ => cases hadmits
      · rename_i hkey
        obtain ⟨hrefused, rfl⟩ := take_error hfirst
        exact ⟨[], .atSection [] rest hkey rfl hrefused⟩

theorem StopsBehind.ownKeys (h : StopsBehind s t e entries taken)
    (hdoc : (Datum.map entries).OwnKeys) :
    (taken.map Prod.fst).Nodup ∧ ∀ x ∈ taken, x.2.keys.Nodup := by
  have hinner : ∀ x ∈ entries, x.2.keys.Nodup := fun x hx =>
    hdoc.inner x.1 x.2 (lookup_of_mem hdoc.top hx)
  have htop : (entries.map Prod.fst).Nodup := hdoc.top
  cases h with
  | atSection _ after =>
    rw [List.map_append] at htop
    exact ⟨htop.of_append_left, fun x hx => hinner x (List.mem_append_left _ hx)⟩
  | atList _ after =>
    rw [List.map_append] at htop
    exact ⟨htop.of_append_left, fun x hx => hinner x (List.mem_append_left _ hx)⟩
  | @atComponent before after ids rest id =>
    rw [List.map_append, List.map_cons, List.append_cons] at htop
    refine ⟨by rw [List.map_append]; exact htop.of_append_left, fun x hx => ?_⟩
    rcases List.mem_append.mp hx with hx | hx
    · exact hinner x (List.mem_append_left _ hx)
    · rw [List.mem_singleton.mp hx]
      exact List.nodup_nil

/-! ## 2. Entries that repeat what is in force -/

/-- Every value that the document gives is in force, and every component that it switches off is
    off. -/
structure Repeats (doc : Datum) (s : Settings) : Prop where
  values : ∀ r ∈ s.sections, ∀ f ∈ r.spec.fields, ∀ d,
    doc.setting? r.spec.key f.name = some d → r.values.datum? f.name = some d
  components : ∀ r ∈ s.sections, ∀ id, r.component = some id → doc.switchesOff id = true →
    r.active = false

theorem eq_of_find? (hs : s.OwnKeys) (ht : t.OwnKeys) (hregs : t.registrations = s.registrations)
    (h : ∀ spec, t.find? spec = s.find? spec) : t = s := by
  have hfound : ∀ {u : Settings}, u.OwnKeys →
      u.sections.map some = u.registrations.map fun x => u.find? x.1 := by
    intro u hu
    rw [registrations, List.map_map]
    exact List.map_congr_left fun r hr => ((find?_eq_some hu).mpr ⟨hr, rfl⟩).symm
  have hsections : t.sections.map some = s.sections.map some := by
    rw [hfound ht, hfound hs, hregs]
    exact List.map_congr_left fun x _ => h x.1
  obtain ⟨sections⟩ := t
  obtain rfl : sections = s.sections :=
    List.map_injective_iff.mpr (fun _ _ h => Option.some.inj h) hsections
  rfl

theorem unchanged_iff {v : Unit} (hs : s.Settled) (hregs : SoundRegistrations s.registrations)
    (hkeys : (taken.map Prod.fst).Nodup) (hinner : ∀ x ∈ taken, x.2.keys.Nodup)
    (h : loadEntries taken s = .ok v t) : t = s ↔ Repeats (.map taken) s := by
  have hleft : ∀ r ∈ s.sections, ∃ r', t.find? r.spec = some r' ∧ Taken (.map taken) r r' :=
    fun r hr => find?_loadEntries hs hregs hkeys hinner h ((find?_eq_some hs.keys).mpr ⟨hr, rfl⟩)
  obtain ⟨hst, hregistrations⟩ := (stays_loadEntries taken).keeps s v t h hs hregs.wellFormed
  constructor
  · rintro rfl
    have hself : ∀ r ∈ t.sections, Taken (.map taken) r r := by
      intro r hr
      obtain ⟨r', hr', htaken⟩ := hleft r hr
      obtain rfl := Option.some.inj (((find?_eq_some hs.keys).mpr ⟨hr, rfl⟩).symm.trans hr')
      exact htaken
    refine ⟨fun r hr f hf d hd => ?_, fun r hr id hid hoff => ?_⟩
    · rw [(hself r hr).values f hf, hd, Option.some_or]
    · rw [(hself r hr).active, hid, Option.any_some, hoff, Bool.not_true, Bool.and_false]
  · intro hrepeats
    refine eq_of_find? hs.keys hst.keys hregistrations fun spec => ?_
    cases hr : s.find? spec with
    | none =>
      cases hr' : t.find? spec with
      | none => rfl
      | some r' =>
        have hmem := registered_of_find? hr'
        rw [hregistrations] at hmem
        obtain ⟨r, hfound, -⟩ := find?_of_registered hs.keys hmem
        cases hr.symm.trans hfound
    | some r =>
      obtain ⟨hmem, rfl⟩ := hs.found hr
      obtain ⟨r', hr', htaken⟩ := hleft r hmem
      obtain ⟨hmem', hspec⟩ := hst.found hr'
      have hvalues : r'.values = r.values := by
        refine (hspec ▸ hst.fits r' hmem').ext (SoundSections.wellFormed hregs.wellFormed hr) (hs.fits r hmem)
          fun f hf => ?_
        rw [htaken.values f hf]
        cases hd : (Datum.map taken).setting? r.spec.key f.name with
        | none => rfl
        | some d => rw [Option.some_or, hrepeats.values r hmem f hf d hd]
      have hactive : r'.active = r.active := by
        rw [htaken.active]
        cases hid : r.component with
        | none => simp
        | some id =>
          cases hoff : (Datum.map taken).switchesOff id with
          | false => simp [hoff]
          | true => rw [hrepeats.components r hmem id hid hoff, Bool.false_and]
      rw [hr']
      obtain ⟨spec, component, active, values⟩ := r'
      obtain rfl : spec = r.spec := hspec
      obtain rfl : component = r.component := htaken.component
      obtain rfl : active = r.active := hactive
      obtain rfl : values = r.values := hvalues
      rfl

end

/-! ## 3. Refused updates -/

/-- A refused parameter leaves the store as it was, and a refused document just if what was taken
    before the refusal repeats the store. -/
theorem refused_updates (s : Settings) :
    (∀ name d e t, take (·.setParameter name d) s = .error e t → t = s) ∧
    (∀ name raw e t, take (·.setText name raw) s = .error e t → t = s) ∧
    ∀ text e t, loadText text s = .error e t →
      (t = s ∧ ∀ entries, Yaml.read? text ≠ some (.map entries)) ∨
      ∃ entries taken, Yaml.read? text = some (.map entries) ∧ StopsBehind s t e entries taken ∧
        (s.Settled → SoundRegistrations s.registrations →
          (t = s ↔ Repeats (.map taken) s)) := by
  refine ⟨fun _ _ _ _ h => (take_error h).2, fun _ _ _ _ h => (take_error h).2, fun text e t h => ?_⟩
  unfold loadText at h
  cases hread : Yaml.read? text with
  | none =>
    rw [hread] at h
    cases h
    exact .inl ⟨rfl, nofun⟩
  | some doc =>
    rw [hread] at h
    cases doc with
    | map entries =>
      obtain ⟨taken, hstops⟩ := loadEntries_error h
      obtain ⟨hkeys, hinner⟩ := hstops.ownKeys (Yaml.ownKeys_read? hread)
      exact .inr ⟨entries, taken, rfl, hstops,
        fun hs hregs => unchanged_iff hs hregs hkeys hinner hstops.loads⟩
    | null => cases h
    | _ =>
      cases h
      exact .inl ⟨rfl, nofun⟩

/-- The clean-up section as it is registered. -/
def cleanupStore : Settings := ⟨[fresh (CleanupSettings.spec, some "ir-passes")]⟩

/-- A section as it stands, and an unknown one. -/
def repeatingText : String := "ir-passes:\n  constant-folding: true\nunknown:\n  a: 1\n"

theorem refused_updates_repeating : cleanupStore.Settled ∧
    SoundRegistrations cleanupStore.registrations ∧
    ∃ e entries taken, loadText repeatingText cleanupStore = .error e cleanupStore ∧
      Yaml.read? repeatingText = some (.map entries) ∧
      StopsBehind cleanupStore cleanupStore e entries taken ∧
      Repeats (.map taken) cleanupStore := by
  have hregs : SoundRegistrations [(CleanupSettings.spec, some "ir-passes")] :=
    ⟨by decide, by decide, by decide⟩
  have hall : registerAll [(CleanupSettings.spec, some "ir-passes")] = .ok cleanupStore := rfl
  obtain ⟨hs, hregistrations⟩ := registerAll_settled hall hregs.wellFormed
  rw [← hregistrations] at hregs
  have hleft : ∃ e t, loadText repeatingText cleanupStore = .error e t ∧ t = cleanupStore :=
    exists_error (by decide +kernel)
  obtain ⟨e, t, hload, ht⟩ := hleft
  subst ht
  have hmap : ((Yaml.read? repeatingText).map Datum.keys) = some ["ir-passes", "unknown"] := by
    decide +kernel
  refine ⟨hs, hregs, ?_⟩
  rcases (refused_updates cleanupStore).2.2 _ e _ hload with
    ⟨-, hnone⟩ | ⟨entries, taken, hread, hstops, hiff⟩
  · obtain ⟨doc, hdoc, hkeys⟩ := Option.map_eq_some_iff.mp hmap
    cases doc with
    | map entries => exact absurd hdoc (hnone entries)
    | _ => cases hkeys
  · exact ⟨e, entries, taken, hload, hread, hstops, (hiff hs hregs).mp rfl⟩

/-- A section that changes, and an unknown one. -/
def changingText : String := "ir-passes:\n  constant-folding: false\nunknown:\n  a: 1\n"

/-- A component of the store, and an unknown one. -/
def unknownComponentText : String := "disabled-components:\n- ir-passes\n- unknown\n"

/-- A document with a bad entry and one with an unknown component, and what they leave behind. -/
theorem refused_documents_change :
    (∃ e t, loadText changingText cleanupStore = .error e t ∧
      t.sections.map (·.values) ≠ cleanupStore.sections.map (·.values)) ∧
    ∃ e t, loadText unknownComponentText cleanupStore = .error e t ∧
      t.components ≠ cleanupStore.components :=
  ⟨exists_error (by decide +kernel), exists_error (by decide +kernel)⟩

end QirProfile.Settings
