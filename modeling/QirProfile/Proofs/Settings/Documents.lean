import QirProfile.Document.Yaml.Write
import QirProfile.Proofs.Settings.Changes
import QirProfile.Settings.Sections

/-!
# Documents of settings
-/

namespace QirProfile

variable {id : String} {v : Unit} {ids : List String} {d : Datum}

/-! ## 1. Components -/

/-- Whether a document switches a component off. -/
def Datum.switchesOff (doc : Datum) (id : String) : Bool :=
  (doc.under? Settings.disabledKey).any (·.lists id)

namespace Settings

variable {s t u : Settings} {r r' : Registered} {spec : Section} {doc : Datum}

/-- Well-formed sections, none with the key of the list of components, and components with names of
    their own. -/
structure SoundRegistrations (regs : List (Section × Option String)) : Prop where
  wellFormed : ∀ e ∈ regs, e.1.WellFormed
  free : ∀ e ∈ regs, e.1.key ≠ disabledKey
  components : (regs.filterMap (·.2)).Nodup

theorem section_of_component {regs : List (Section × Option String)} {a b : Section} (id : String)
    (h : (regs.filterMap (·.2)).Nodup) (ha : (a, some id) ∈ regs) (hb : (b, some id) ∈ regs) :
    a = b := by
  have hmem : ∀ {c : Section} {l : List (Section × Option String)}, (c, some id) ∈ l →
      id ∈ l.filterMap (·.2) := fun hc => List.mem_filterMap.mpr ⟨_, hc, rfl⟩
  induction regs with
  | nil => cases ha
  | cons e regs ih =>
    rcases List.mem_cons.mp ha with rfl | ha'
    · rcases List.mem_cons.mp hb with heq | hb'
      · exact (congrArg Prod.fst heq).symm
      · exact absurd (hmem hb') (List.nodup_cons.mp h).1
    · rcases List.mem_cons.mp hb with rfl | hb'
      · exact absurd (hmem ha') (List.nodup_cons.mp h).1
      · exact ih (h.sublist ((List.sublist_cons_self e regs).filterMap _)) ha' hb'

theorem find?_setActive {active : Bool} (hs : s.Settled)
    (hregs : SoundRegistrations s.registrations) (h : s.setActive id active = .ok t)
    (hr : s.find? spec = some r) :
    t.find? spec = some (if r.component = some id then { r with active := active } else r) := by
  obtain ⟨r₀, hid, hreplaces⟩ := setActive_ok hs.keys h
  rw [hreplaces.after]
  by_cases hspec : spec = r₀.spec
  · subst hspec
    obtain rfl := Option.some.inj (hreplaces.found.symm.trans hr)
    rw [if_pos rfl, if_pos hid]
  · rw [if_neg hspec, if_neg, hr]
    intro hcomponent
    refine hspec (section_of_component id hregs.components ?_ ?_)
    · exact hcomponent ▸ registered_of_find? hr
    · exact hid ▸ registered_of_find? hreplaces.found

theorem take_ok {f : Settings → Except CompileError Settings}
    (h : take f s = .ok v t) : f s = .ok t := by
  unfold take at h
  split at h
  · rename_i u hu
    cases h
    exact hu
  · cases h

theorem take_of_ok {f : Settings → Except CompileError Settings} (h : f s = .ok t) :
    take f s = .ok () t := by
  unfold take
  rw [h]

/-- A section with its component switched off if it is one of some. -/
def without (ids : List String) (r : Registered) : Registered :=
  { r with active := r.active && !r.component.any ids.contains }

theorem find?_switchOff {v : PUnit} (hs : s.Settled)
    (hregs : SoundRegistrations s.registrations)
    (h : (ids.forM fun id => take (·.setActive id false)) s = .ok v t)
    (hr : s.find? spec = some r) : t.find? spec = some (without ids r) := by
  induction ids generalizing s r with
  | nil =>
    cases h
    rw [hr]
    obtain ⟨_, _ | _, _, _⟩ := r <;> simp [without]
  | cons id ids ih =>
    obtain ⟨_, u, hu, h⟩ := bind_ok h
    have hset := take_ok hu
    obtain ⟨hsu, hregistrations⟩ := stays_setActive hset hs hregs.wellFormed
    have hru := find?_setActive hs hregs hset hr
    rw [ih hsu (hregistrations ▸ hregs) h hru]
    cases hc : r.component with
    | none => simp [without, hc]
    | some c => by_cases hid : c = id <;> simp [without, hc, hid]

/-! ## 2. A document that is taken -/

theorem loadDisabled_ok (h : loadDisabled d s = .ok v t) :
    ∃ ids : List String, d = .list (ids.map .text) ∧
      (ids.forM fun id => take (·.setActive id false)) s = .ok () t := by
  unfold loadDisabled at h
  cases hread : SettingKind.texts.read d with
  | error e =>
    rw [hread] at h
    cases h
  | ok w =>
    obtain ⟨hadmits, rfl⟩ := SettingKind.read_iff.mp hread
    cases w with
    | texts ids =>
      rw [hread] at h
      exact ⟨ids, rfl, h⟩
    | _ => cases hadmits

/-- What a document leaves of a section. -/
structure Taken (doc : Datum) (r r' : Registered) : Prop where
  values : ∀ f ∈ r.spec.fields,
    r'.values.datum? f.name = (doc.setting? r.spec.key f.name).or (r.values.datum? f.name)
  component : r'.component = r.component
  active : r'.active = (r.active && !r.component.any doc.switchesOff)

theorem spec_of_key {a b : Section} {c d : Option String} (hk : s.OwnKeys)
    (ha : (a, c) ∈ s.registrations) (hb : (b, d) ∈ s.registrations) (h : a.key = b.key) : a = b :=
  congrArg Prod.fst (List.inj_on_of_nodup_map hk ha hb h)

section

variable {key : String} {d : Datum} {rest : List (String × Datum)}

theorem setting?_cons_ne {k : String} (hne : k ≠ key) (name : String) :
    (Datum.map ((key, d) :: rest)).setting? k name = (Datum.map rest).setting? k name := by
  simp [Datum.setting?, Datum.under?, lookup_cons_ite, hne]

theorem setting?_cons_self (hnew : key ∉ rest.map Prod.fst) (name : String) :
    (Datum.map ((key, d) :: rest)).setting? key name = d.under? name ∧
      (Datum.map rest).setting? key name = none := by
  simp [Datum.setting?, Datum.under?, lookup_eq_none.mpr hnew]

theorem taken_disabled (hnew : disabledKey ∉ rest.map Prod.fst)
    (hfree : r.spec.key ≠ disabledKey) (h : Taken (.map rest) (without ids r) r') :
    Taken (.map ((disabledKey, .list (ids.map .text)) :: rest)) r r' where
  values f hf := by
    rw [setting?_cons_ne hfree]
    exact h.values f hf
  component := h.component
  active := by
    have hrest : (Datum.map rest).switchesOff = fun _ => false := by
      funext id
      simp [Datum.switchesOff, Datum.under?, lookup_eq_none.mpr hnew]
    have hall : (Datum.map ((disabledKey, .list (ids.map .text)) :: rest)).switchesOff =
        ids.contains := by
      funext id
      simp [Datum.switchesOff, Datum.under?]
    rw [h.active, hrest, hall, without]
    cases r.component <;> simp

theorem taken_section (hkey : key ≠ disabledKey)
    (hvalues : ∀ f ∈ r.spec.fields,
      r'.values.datum? f.name =
        ((Datum.map ((key, d) :: rest)).setting? r.spec.key f.name).or (r.values.datum? f.name))
    (hcomponent : r'.component = r.component)
    (hactive : r'.active = (r.active && !r.component.any (Datum.map rest).switchesOff)) :
    Taken (.map ((key, d) :: rest)) r r' where
  values := hvalues
  component := hcomponent
  active := by
    have hsame : (Datum.map ((key, d) :: rest)).switchesOff = (Datum.map rest).switchesOff := by
      funext id
      simp [Datum.switchesOff, Datum.under?, lookup_cons_ite, hkey.symm]
    rw [hactive, hsame]

theorem datum?_overlay {v : Values} {f : Field} (hs : r.spec.WellFormed)
    (hr : r.spec.Fits r.values) (hd : d.keys.Nodup) (h : overlay r key d = .ok v)
    (hf : f ∈ r.spec.fields) :
    v.datum? f.name = (d.under? f.name).or (r.values.datum? f.name) := by
  rcases overlay_cases h with ⟨update, rfl, hread⟩ | ⟨rfl, rfl⟩
  · exact ((Section.read_merge_iff hs hr hd).mp hread).2 f hf
  · rfl

end

theorem find?_loadEntries {entries : List (String × Datum)} (hs : s.Settled)
    (hregs : SoundRegistrations s.registrations) (hkeys : (entries.map Prod.fst).Nodup)
    (hinner : ∀ e ∈ entries, e.2.keys.Nodup) (h : loadEntries entries s = .ok v t)
    (hr : s.find? spec = some r) : ∃ r', t.find? spec = some r' ∧ Taken (.map entries) r r' := by
  induction entries generalizing s r with
  | nil =>
    cases h
    refine ⟨r, hr, ⟨fun f _ => rfl, rfl, ?_⟩⟩
    cases r.component <;> simp [Datum.switchesOff, Datum.under?]
  | cons e rest ih =>
    obtain ⟨key, d⟩ := e
    obtain ⟨hnew, hrest⟩ := List.nodup_cons.mp hkeys
    have hinnerRest : ∀ e ∈ rest, e.2.keys.Nodup := fun e he => hinner e (List.mem_cons_of_mem _ he)
    have hspec : r.spec = spec := by simpa using List.find?_some hr
    rw [loadEntries_cons] at h
    obtain ⟨_, u, hfirst, hlater⟩ := bind_ok h
    split at hfirst
    · rename_i hkey
      subst hkey
      obtain ⟨ids, rfl, hoff⟩ := loadDisabled_ok hfirst
      obtain ⟨hsu, hregistrations⟩ :=
        (stays_loadDisabled _).keeps s _ u hfirst hs hregs.wellFormed
      obtain ⟨r', hr', htaken⟩ := ih hsu (hregistrations ▸ hregs) hrest hinnerRest hlater
        (find?_switchOff hs hregs hoff hr)
      exact ⟨r', hr', taken_disabled hnew (hregs.free _ (registered_of_find? (hspec ▸ hr))) htaken⟩
    · rename_i hkey
      have hload := take_ok hfirst
      obtain ⟨hsu, hregistrations⟩ := stays_loadSection hload hs hregs.wellFormed
      obtain ⟨r₀, w, hkey₀, hw, hreplaces⟩ := loadSection_ok hs.keys hload
      have hru := hreplaces.after spec
      by_cases hsame : spec = r₀.spec
      · subst hsame
        obtain rfl := Option.some.inj (hreplaces.found.symm.trans hr)
        rw [if_pos rfl] at hru
        obtain ⟨r', hr', htaken⟩ := ih hsu (hregistrations ▸ hregs) hrest hinnerRest hlater hru
        subst hkey₀
        refine ⟨r', hr', taken_section hkey (fun f hf => ?_) htaken.component htaken.active⟩
        obtain ⟨hself, hother⟩ := setting?_cons_self hnew f.name
        have hvalues := htaken.values f hf
        rw [hother, Option.none_or] at hvalues
        rw [hself, hvalues]
        exact datum?_overlay (SoundSections.wellFormed hregs.wellFormed hr)
          (hs.fits _ (hs.found hr).1) (hinner _ List.mem_cons_self) hw hf
      · rw [if_neg hsame, hr] at hru
        obtain ⟨r', hr', htaken⟩ := ih hsu (hregistrations ▸ hregs) hrest hinnerRest hlater hru
        refine ⟨r', hr', taken_section hkey (fun f hf => ?_) htaken.component htaken.active⟩
        rw [setting?_cons_ne]
        · exact htaken.values f hf
        · intro heq
          refine hsame (spec_of_key hs.keys (registered_of_find? hr)
            (registered_of_find? hreplaces.found) ?_)
          rw [← hspec, heq, hkey₀]

theorem find?_load (hs : s.Settled) (hregs : SoundRegistrations s.registrations)
    (hdoc : doc.OwnKeys) (h : load doc s = .ok v t) (hr : s.find? spec = some r) :
    ∃ r', t.find? spec = some r' ∧ Taken doc r r' := by
  cases doc with
  | map entries =>
    refine find?_loadEntries hs hregs hdoc.top (fun e he => ?_) h hr
    exact hdoc.inner e.1 e.2 (lookup_of_mem hdoc.top he)
  | null =>
    cases h
    refine ⟨r, hr, ⟨fun f _ => rfl, rfl, ?_⟩⟩
    cases r.component <;> simp [Datum.switchesOff, Datum.under?]
  | _ => cases h

/-! ## 3. Documents that are taken -/

/-- An entry of a document that the store takes in every state: a list of its components, or values
    that fit a section. -/
def Takes (regs : List (Section × Option String)) (e : String × Datum) : Prop :=
  (e.1 = disabledKey ∧ ∃ ids : List String, e.2 = .list (ids.map .text) ∧
    ∀ id ∈ ids, some id ∈ regs.map (·.2)) ∨
  ∃ x ∈ regs, x.1.key = e.1 ∧ ∃ v : Values, x.1.Fits v ∧ e.2 = v.datum

theorem Takes.mono {regs regs' : List (Section × Option String)} {e : String × Datum}
    (h : Takes regs e) (hsub : regs ⊆ regs') : Takes regs' e := by
  rcases h with ⟨hkey, ids, hd, hids⟩ | ⟨x, hx, hv⟩
  · exact .inl ⟨hkey, ids, hd, fun id hid => List.map_subset _ hsub (hids id hid)⟩
  · exact .inr ⟨x, hsub hx, hv⟩

theorem setActive_exists (active : Bool)
    (h : some id ∈ s.registrations.map (·.2)) : ∃ t, s.setActive id active = .ok t := by
  obtain ⟨e, he, hid⟩ := List.mem_map.mp h
  obtain ⟨r, hr, rfl⟩ := List.mem_map.mp he
  have hany : s.sections.any (·.component == some id) = true :=
    List.any_eq_true.mpr ⟨r, hr, beq_iff_eq.mpr hid⟩
  unfold setActive
  rw [if_pos hany]
  exact ⟨_, rfl⟩

theorem switchOff_exists (hs : s.Settled)
    (hregs : SoundRegistrations s.registrations)
    (h : ∀ id ∈ ids, some id ∈ s.registrations.map (·.2)) :
    ∃ t, (ids.forM fun id => take (·.setActive id false)) s = .ok () t := by
  induction ids generalizing s with
  | nil => exact ⟨s, rfl⟩
  | cons id ids ih =>
    obtain ⟨u, hu⟩ := setActive_exists false (h id List.mem_cons_self)
    obtain ⟨hsu, hregistrations⟩ := stays_setActive hu hs hregs.wellFormed
    rw [← hregistrations] at hregs h
    obtain ⟨t, ht⟩ := ih hsu hregs fun id hid => h id (List.mem_cons_of_mem _ hid)
    exact ⟨t, (bind_of_ok (take_of_ok hu) _).trans ht⟩

theorem loadSection_exists {v : Values} {component : Option String} (hs : s.Settled)
    (hsound : s.SoundSections) (hspec : (spec, component) ∈ s.registrations) (hv : spec.Fits v) :
    ∃ t, s.loadSection spec.key v.datum = .ok t := by
  obtain ⟨x, hx, heq⟩ := List.mem_map.mp hspec
  cases heq
  obtain ⟨r, hr⟩ := Option.isSome_iff_exists.mp
    (List.find?_isSome (p := (·.spec.key == x.spec.key)).mpr ⟨x, hx, beq_self_eq_true x.spec.key⟩)
  have hmem := List.mem_of_find?_eq_some hr
  have hkey : r.spec.key = x.spec.key := by simpa using List.find?_some hr
  obtain rfl : r = x := List.inj_on_of_nodup_map (ownKeys_iff.mp hs.keys) hmem hx hkey
  have hwf := hsound _ hspec
  have hread : overlay r r.spec.key v.datum = .ok v := by
    refine overlay_map.mpr ((Section.read_merge_iff hwf (hs.fits r hx)
      (Datum.nodup_of_sortedKeys (Values.sortedKeys_entries v))).mpr ⟨hv, fun f hf => ?_⟩)
    obtain ⟨y, hy, -⟩ := hv.lookup hf
    rw [Values.lookup_entries (hv.keys_nodup hwf), Values.datum?, hy]
    rfl
  unfold loadSection
  rw [hr]
  exact ⟨_, except_bind_ok.mpr ⟨v, hread, rfl⟩⟩

theorem loadEntries_exists {entries : List (String × Datum)} (hs : s.Settled)
    (hregs : SoundRegistrations s.registrations) (h : ∀ e ∈ entries, Takes s.registrations e) :
    ∃ t, loadEntries entries s = .ok () t := by
  induction entries generalizing s with
  | nil => exact ⟨s, rfl⟩
  | cons e rest ih =>
    obtain ⟨key, d⟩ := e
    obtain ⟨u, hu⟩ : ∃ u, (if key = disabledKey then loadDisabled d
        else take (·.loadSection key d)) s = .ok () u := by
      rcases h _ List.mem_cons_self with ⟨hkey, ids, hd, hids⟩ | ⟨x, hx, hkey, v, hv, hd⟩
      · obtain ⟨u, hu⟩ := switchOff_exists hs hregs hids
        rw [if_pos hkey]
        refine ⟨u, ?_⟩
        unfold loadDisabled
        rw [show d = (SettingValue.texts ids).datum from hd, SettingKind.read_iff.mpr ⟨rfl, rfl⟩]
        exact hu
      · obtain ⟨u, hu⟩ := loadSection_exists hs hregs.wellFormed hx hv
        obtain rfl : x.1.key = key := hkey
        obtain rfl : d = v.datum := hd
        rw [if_neg (hregs.free x hx)]
        exact ⟨u, take_of_ok hu⟩
    have hstays : Stays s u := by
      split at hu
      · exact (stays_loadDisabled d).keeps s _ u hu
      · exact stays_loadSection (take_ok hu)
    obtain ⟨hsu, hregistrations⟩ := hstays hs hregs.wellFormed
    rw [← hregistrations] at hregs h
    obtain ⟨t, ht⟩ := ih hsu hregs fun e he => h e (List.mem_cons_of_mem _ he)
    exact ⟨t, by rw [loadEntries_cons, bind_of_ok hu, ht]⟩

/-! ## 4. Documents that are saved -/

/-- The components that are switched off. -/
def off (s : Settings) : List ComponentState := s.components.filter (!·.active)

/-- The entries of the saved document, in the order of registration. -/
def saved (s : Settings) : List (String × Datum) :=
  (s.sections.map fun r => (r.spec.key, Values.datum r.values)) ++
    if s.off.isEmpty then [] else [(disabledKey, .list (s.off.map fun c => .text c.id))]

theorem mem_off : (∃ c ∈ s.off, c.id = id) ↔
    ∃ r ∈ s.sections, r.component = some id ∧ r.active = false := by
  simp only [off, components, List.mem_filter, List.mem_filterMap, Option.map_eq_some_iff]
  constructor
  · rintro ⟨_, ⟨⟨r, hr, id, hid, rfl⟩, hoff⟩, rfl⟩
    exact ⟨r, hr, hid, by simpa using hoff⟩
  · rintro ⟨r, hr, hid, hoff⟩
    exact ⟨⟨id, r.spec.key, r.active⟩, ⟨⟨r, hr, id, hid, rfl⟩, by simp [hoff]⟩, rfl⟩

theorem mem_saved {e : String × Datum} (h : e ∈ s.saved) :
    (∃ r ∈ s.sections, e = (r.spec.key, Values.datum r.values)) ∨
      e = (disabledKey, .list (s.off.map fun c => .text c.id)) := by
  rcases List.mem_append.mp h with h | h
  · obtain ⟨r, hr, rfl⟩ := List.mem_map.mp h
    exact .inl ⟨r, hr, rfl⟩
  · split at h
    · cases h
    · exact .inr (List.mem_singleton.mp h)

theorem saved_keys (hk : s.OwnKeys) (hregs : SoundRegistrations s.registrations) :
    (s.saved.map Prod.fst).Nodup := by
  have hsections : ((s.sections.map fun r => (r.spec.key, Values.datum r.values)).map
      Prod.fst).Nodup := by
    rw [List.map_map]
    exact ownKeys_iff.mp hk
  rw [saved, List.map_append, List.nodup_append]
  refine ⟨hsections, by split <;> simp, fun key hkey key' hkey' => ?_⟩
  obtain ⟨e, he, rfl⟩ := List.mem_map.mp hkey
  obtain ⟨r, hr, rfl⟩ := List.mem_map.mp he
  have hlast : key' = disabledKey := by
    split at hkey'
    · cases hkey'
    · exact List.mem_singleton.mp hkey'
  rw [hlast]
  exact hregs.free _ (List.mem_map.mpr ⟨r, hr, rfl⟩)

theorem under?_document (hk : s.OwnKeys) (hregs : SoundRegistrations s.registrations)
    (key : String) : s.document.under? key = s.saved.lookup key :=
  Datum.lookup_sorted (saved_keys hk hregs) key

theorem setting?_document (hs : s.Settled) (hregs : SoundRegistrations s.registrations)
    (hr : r ∈ s.sections) (name : String) :
    s.document.setting? r.spec.key name = r.values.datum? name := by
  have hmem : (r.spec.key, Values.datum r.values) ∈ s.saved :=
    List.mem_append_left _ (List.mem_map.mpr ⟨r, hr, rfl⟩)
  have hwf := hregs.wellFormed _ (List.mem_map.mpr ⟨r, hr, rfl⟩)
  rw [Datum.setting?, under?_document hs.keys hregs,
    lookup_of_mem (saved_keys hs.keys hregs) hmem]
  exact Values.lookup_entries ((hs.fits r hr).keys_nodup hwf) name

theorem switchesOff_iff (hk : s.OwnKeys) (hregs : SoundRegistrations s.registrations)
    : s.document.switchesOff id = true ↔ ∃ c ∈ s.off, c.id = id := by
  rw [Datum.switchesOff, under?_document hk hregs]
  by_cases hoff : s.off = []
  · have hnone : s.saved.lookup disabledKey = none := by
      rw [lookup_eq_none, saved, hoff]
      intro hkey
      obtain ⟨e, he, hdisabled⟩ := List.mem_map.mp hkey
      simp only [List.isEmpty_nil, if_true, List.append_nil] at he
      obtain ⟨r, hr, rfl⟩ := List.mem_map.mp he
      exact hregs.free _ (List.mem_map.mpr ⟨r, hr, rfl⟩) hdisabled
    simp [hnone, hoff]
  · have hlist : (disabledKey, Datum.list (s.off.map fun c => .text c.id)) ∈ s.saved := by
      refine List.mem_append_right _ ?_
      rw [if_neg (by simpa using hoff)]
      exact List.mem_singleton_self _
    have hids : s.off.map (fun c => Datum.text c.id) = (s.off.map (·.id)).map .text := by
      rw [List.map_map]
      rfl
    rw [lookup_of_mem (saved_keys hk hregs) hlist, Option.any_some, hids, Datum.lists_texts]
    simp

theorem switchesOff_document (hs : s.Settled) (hregs : SoundRegistrations s.registrations)
    (hr : r ∈ s.sections) (hid : r.component = some id) :
    s.document.switchesOff id = !r.active := by
  have hunique : (∃ c ∈ s.off, c.id = id) ↔ r.active = false := by
    rw [mem_off]
    constructor
    · rintro ⟨x, hx, hxid, hoff⟩
      have hspec : x.spec = r.spec := section_of_component id hregs.components
        (List.mem_map.mpr ⟨x, hx, by rw [hxid]⟩) (List.mem_map.mpr ⟨r, hr, by rw [hid]⟩)
      obtain rfl : x = r := List.inj_on_of_nodup_map (ownKeys_iff.mp hs.keys) hx hr
        (congrArg Section.key hspec)
      exact hoff
    · exact fun hoff => ⟨r, hr, hid, hoff⟩
  have hiff := (switchesOff_iff hs.keys hregs).trans hunique
  cases hactive : r.active with
  | false => exact hiff.mpr hactive
  | true =>
    rw [hactive] at hiff
    simpa using hiff

theorem takes_document (hs : s.Settled) (hregs : SoundRegistrations s.registrations) :
    ∀ e ∈ Datum.sorted s.saved, Takes s.registrations e := by
  rintro ⟨key, d⟩ he
  have hlookup := lookup_of_mem (Datum.nodup_of_sortedKeys (Datum.sortedKeys_sorted s.saved)) he
  rw [Datum.lookup_sorted (saved_keys hs.keys hregs)] at hlookup
  rcases mem_saved (mem_of_lookup hlookup) with ⟨r, hr, heq⟩ | heq
  · cases heq
    exact .inr ⟨_, List.mem_map.mpr ⟨r, hr, rfl⟩, rfl, r.values, hs.fits r hr, rfl⟩
  · cases heq
    refine .inl ⟨rfl, s.off.map (·.id), by rw [List.map_map]; rfl, fun id hid => ?_⟩
    obtain ⟨r, hr, hcomponent, -⟩ := mem_off.mp (List.mem_map.mp hid)
    exact List.mem_map.mpr ⟨_, List.mem_map.mpr ⟨r, hr, rfl⟩, hcomponent⟩

theorem ownKeys_document (hs : s.Settled) (hregs : SoundRegistrations s.registrations) :
    s.document.OwnKeys where
  top := Datum.nodup_of_sortedKeys (Datum.sortedKeys_sorted s.saved)
  inner key d h := by
    rw [under?_document hs.keys hregs] at h
    rcases mem_saved (mem_of_lookup h) with ⟨r, hr, heq⟩ | heq
    · cases heq
      exact Datum.nodup_of_sortedKeys (Values.sortedKeys_entries r.values)
    · cases heq
      exact List.nodup_nil

theorem eq_of_taken (ha : s.Settled) (hregs : SoundRegistrations s.registrations)
    (hr : r ∈ s.sections) (hspec : r'.spec = r.spec) (hcomponent : r'.component = r.component)
    (hfits : r'.spec.Fits r'.values)
    (h : Taken s.document (fresh (r.spec, r.component)) r') : r' = r := by
  have hwf := hregs.wellFormed _ (List.mem_map.mpr ⟨r, hr, rfl⟩)
  have hvalues : r'.values = r.values := by
    refine (hspec ▸ hfits).ext hwf (ha.fits r hr) fun f hf => ?_
    obtain ⟨x, hx, -⟩ := (ha.fits r hr).lookup hf
    have hf' := h.values f hf
    change _ = (s.document.setting? r.spec.key f.name).or _ at hf'
    rw [hf', setting?_document ha hregs hr, Values.datum?, hx]
    rfl
  have hactive : r'.active = r.active := by
    have hoff := h.active
    change _ = (true && !r.component.any _) at hoff
    rw [hoff]
    cases hc : r.component with
    | none => exact (ha.plain r hr hc).symm
    | some id =>
      rw [Option.any_some, switchesOff_document ha hregs hr hc]
      simp
  obtain ⟨spec, component, active, values⟩ := r'
  obtain rfl : spec = r.spec := hspec
  obtain rfl : component = r.component := hcomponent
  obtain rfl : active = r.active := hactive
  obtain rfl : values = r.values := hvalues
  rfl

/-! ## 5. The way there and back -/

/-- The document of a store, loaded where the same sections were registered in any order, gives the
    store again. What is asked of YAML is that it reads this document as it was written. -/
theorem loadText_document {regs regs' : List (Section × Option String)} {start a b : Settings}
    (hregs : SoundRegistrations regs) (hstart : registerAll regs = .ok start)
    (ha : Reached start a) (hperm : regs'.Perm regs) (hb : registerAll regs' = .ok b)
    (hyaml : Yaml.read? (Yaml.write a.document) = some a.document) :
    ∃ t, loadText (Yaml.write a.document) b = .ok () t ∧ t.registrations = regs' ∧
      ∀ spec, t.find? spec = a.find? spec := by
  obtain ⟨hsettled, hregistrations⟩ := registerAll_settled hstart hregs.wellFormed
  obtain ⟨hsa, hrega⟩ := ha.stays hsettled (by rw [SoundSections, hregistrations]; exact hregs.wellFormed)
  rw [hregistrations] at hrega
  have hregs' : SoundRegistrations regs' :=
    ⟨fun e he => hregs.wellFormed e (hperm.mem_iff.mp he),
      fun e he => hregs.free e (hperm.mem_iff.mp he),
      ((hperm.filterMap _).nodup_iff).mpr hregs.components⟩
  obtain ⟨hsb, hregb⟩ := registerAll_settled hb hregs'.wellFormed
  have hsoundA : SoundRegistrations a.registrations := hrega ▸ hregs
  have hsoundB : SoundRegistrations b.registrations := hregb ▸ hregs'
  have hsub : a.registrations ⊆ b.registrations := by
    rw [hrega, hregb]
    exact hperm.symm.subset
  obtain ⟨t, ht⟩ := loadEntries_exists hsb hsoundB
    fun e he => (takes_document hsa hsoundA e he).mono hsub
  have hload : load a.document b = .ok () t := ht
  obtain ⟨hst, hregt⟩ := (stays_load a.document).keeps b () t hload hsb hsoundB.wellFormed
  refine ⟨t, ?_, hregt.trans hregb, fun spec => ?_⟩
  · unfold loadText
    rw [hyaml]
    exact hload
  cases hra : a.find? spec with
  | some ra =>
    obtain ⟨hmem, rfl⟩ := hsa.found hra
    obtain ⟨rb, hrb, hcomponent⟩ := find?_of_registered hsb.keys (hsub (registered_of_find? hra))
    have hfresh : rb = fresh (ra.spec, ra.component) := by
      obtain ⟨hrbmem, hrbspec⟩ := hsb.found hrb
      rw [(registerAll_ok hb).2] at hrbmem
      obtain ⟨e, -, rfl⟩ := List.mem_map.mp hrbmem
      rw [← hrbspec, ← hcomponent]
      rfl
    obtain ⟨r', hr', htaken⟩ := find?_load hsb hsoundB (ownKeys_document hsa hsoundA) hload hrb
    obtain ⟨hmem', hspec'⟩ := hst.found hr'
    rw [hr', eq_of_taken hsa hsoundA hmem hspec' (htaken.component.trans hcomponent)
      (hst.fits r' hmem') (hfresh ▸ htaken)]
  | none =>
    cases hr' : t.find? spec with
    | none => rfl
    | some r' =>
      have hmem := registered_of_find? hr'
      rw [hregt, hregb] at hmem
      obtain ⟨r, hr, -⟩ := find?_of_registered hsa.keys (hrega ▸ hperm.mem_iff.mp hmem)
      rw [hra] at hr
      cases hr

/-- The clean-up section, switched off and without constant folding. -/
def withoutCleanup : Settings where
  sections :=
    [{ spec := CleanupSettings.spec, component := some "ir-passes", active := false,
       values := CleanupSettings.toValues { constantFolding := false } }]

theorem loadText_withoutCleanup :
    ∃ t, loadText (Yaml.write withoutCleanup.document)
        ⟨[fresh (CleanupSettings.spec, some "ir-passes")]⟩ = .ok () t ∧
      t.registrations = [(CleanupSettings.spec, some "ir-passes")] ∧
      ∀ spec, t.find? spec = withoutCleanup.find? spec := by
  have hregs : SoundRegistrations [(CleanupSettings.spec, some "ir-passes")] :=
    ⟨by decide, by decide, by decide⟩
  have hoff : setActive ⟨[fresh (CleanupSettings.spec, some "ir-passes")]⟩ "ir-passes" false =
      .ok ⟨[{ fresh (CleanupSettings.spec, some "ir-passes") with active := false }]⟩ := rfl
  have hfolding : setParameter
      ⟨[{ fresh (CleanupSettings.spec, some "ir-passes") with active := false }]⟩
      "constant-folding" (.bool false) = .ok withoutCleanup := rfl
  have hreached := (Reached.start.setActive hoff).setParameter hfolding
  exact loadText_document hregs rfl hreached (.refl _) rfl (by decide +kernel)

end Settings

end QirProfile
