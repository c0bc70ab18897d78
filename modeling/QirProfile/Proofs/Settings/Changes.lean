import QirProfile.Proofs.Settings.Sections
import QirProfile.Settings.Store

/-!
# What changes the store

A change of the store puts one registered section in the place of another one with the same
description (`Replaces`). Each operation is taken apart into the section it found and the one that
it put there.
-/

namespace QirProfile.Settings

variable {s t : Settings} {r r' : Registered} {spec : Section}
variable {v : Values} {name key : String} {d : Datum} {regs : List (Section × Option String)}

/-! ## 1. Sections of their own -/

/-- The sections that are registered, with their components. -/
def registrations (s : Settings) : List (Section × Option String) :=
  s.sections.map fun r => (r.spec, r.component)

/-- Every section has a key of its own. -/
def OwnKeys (s : Settings) : Prop := (s.registrations.map (·.1.key)).Nodup

theorem ownKeys_iff : s.OwnKeys ↔ (s.sections.map (·.spec.key)).Nodup := by
  rw [OwnKeys, registrations, List.map_map]
  rfl

theorem find?_eq_some (hk : s.OwnKeys) : s.find? spec = some r ↔ r ∈ s.sections ∧ r.spec = spec := by
  constructor
  · intro h
    exact ⟨List.mem_of_find?_eq_some h, by simpa using List.find?_some h⟩
  · rintro ⟨hr, rfl⟩
    obtain ⟨x, hx⟩ := Option.isSome_iff_exists.mp
      (List.find?_isSome (p := (·.spec = r.spec)).mpr ⟨r, hr, decide_eq_true rfl⟩)
    have hspec : x.spec = r.spec := by simpa using List.find?_some hx
    have hsame : x = r := List.inj_on_of_nodup_map (ownKeys_iff.mp hk)
      (List.mem_of_find?_eq_some hx) hr (congrArg Section.key hspec)
    exact hsame ▸ hx

theorem find?_of_registered (hk : s.OwnKeys) {component : Option String}
    (h : (spec, component) ∈ s.registrations) :
    ∃ r, s.find? spec = some r ∧ r.component = component := by
  obtain ⟨r, hr, heq⟩ := List.mem_map.mp h
  cases heq
  exact ⟨r, (find?_eq_some hk).mpr ⟨hr, rfl⟩, rfl⟩

theorem registered_of_find? (h : s.find? spec = some r) :
    (spec, r.component) ∈ s.registrations := by
  obtain rfl : r.spec = spec := by simpa using List.find?_some h
  exact List.mem_map.mpr ⟨r, List.mem_of_find?_eq_some h, rfl⟩

/-! ## 2. One section in the place of another -/

/-- The second store has `r'` where the first one has `r`, and is like it elsewhere. -/
structure Replaces (s t : Settings) (r r' : Registered) : Prop where
  found : s.find? r.spec = some r
  spec : r'.spec = r.spec
  component : r'.component = r.component
  registrations : t.registrations = s.registrations
  after : ∀ spec, t.find? spec = if spec = r.spec then some r' else s.find? spec

theorem modify_findIdx {α : Type} {l : List α} {p : α → Bool} {a : α} (f : α → α)
    (h : l.find? p = some a) :
    ∃ l₁ l₂, l = l₁ ++ a :: l₂ ∧ l.modify (l.findIdx p) f = l₁ ++ f a :: l₂ := by
  induction l with
  | nil => cases h
  | cons x l ih =>
    rw [List.findIdx_cons]
    cases hp : p x with
    | true =>
      rw [List.find?_cons_of_pos hp] at h
      cases h
      exact ⟨[], l, rfl, rfl⟩
    | false =>
      rw [List.find?_cons_of_neg (by simp [hp])] at h
      obtain ⟨l₁, l₂, rfl, hmodify⟩ := ih h
      exact ⟨x :: l₁, l₂, rfl, by simp [hmodify]⟩

theorem replaces_update (hk : s.OwnKeys) {fits : Registered → Bool} {f : Registered → Registered}
    (h : s.sections.find? fits = some r) (hspec : (f r).spec = r.spec)
    (hcomponent : (f r).component = r.component) : Replaces s (s.update fits f) r (f r) := by
  obtain ⟨l₁, l₂, hs, ht⟩ := modify_findIdx f h
  have hsections : (s.update fits f).sections = l₁ ++ f r :: l₂ := ht
  have hregistrations : (s.update fits f).registrations = s.registrations := by
    rw [Settings.registrations, Settings.registrations, hsections, hs, List.map_append,
      List.map_append, List.map_cons, List.map_cons, hspec, hcomponent]
  have hkt : (s.update fits f).OwnKeys := by
    rw [OwnKeys, hregistrations]
    exact hk
  refine ⟨(find?_eq_some hk).mpr ⟨List.mem_of_find?_eq_some h, rfl⟩, hspec, hcomponent,
    hregistrations, fun spec => ?_⟩
  split
  · rename_i heq
    exact (find?_eq_some hkt).mpr ⟨by rw [hsections]; simp, hspec.trans heq.symm⟩
  · rename_i hne
    ext x
    rw [find?_eq_some hkt, find?_eq_some hk, hsections, hs]
    refine and_congr_left fun hx => ?_
    have hold : x ≠ r := by
      rintro rfl
      exact hne hx.symm
    have hnew : x ≠ f r := by
      rintro rfl
      exact hne (hx.symm.trans hspec)
    simp [hold, hnew]

theorem Replaces.ownKeys (h : Replaces s t r r') (hk : s.OwnKeys) : t.OwnKeys := by
  rw [OwnKeys, h.registrations]
  exact hk

/-! ## 3. Operations that succeed -/

theorem setValues_ok (hk : s.OwnKeys) (h : s.setValues spec v = .ok t) :
    ∃ r, r.spec = spec ∧ Replaces s t r { r with values := v } := by
  unfold setValues at h
  split at h
  · rename_i hcontains
    cases h
    obtain ⟨r, hr⟩ := Option.isSome_iff_exists.mp hcontains
    exact ⟨r, by simpa using List.find?_some hr, replaces_update hk hr rfl rfl⟩
  · cases h

theorem setActive_ok {id : String} {active : Bool} (hk : s.OwnKeys)
    (h : s.setActive id active = .ok t) :
    ∃ r, r.component = some id ∧ Replaces s t r { r with active := active } := by
  unfold setActive at h
  split at h
  · rename_i hany
    cases h
    obtain ⟨x, hx, hid⟩ := List.any_eq_true.mp hany
    obtain ⟨r, hr⟩ := Option.isSome_iff_exists.mp
      (List.find?_isSome (p := (·.component == some id)).mpr ⟨x, hx, hid⟩)
    exact ⟨r, by simpa using List.find?_some hr, replaces_update hk hr rfl rfl⟩
  · cases h

theorem setParameter_ok (hk : s.OwnKeys)
    (h : s.setParameter name d = .ok t) : ∃ r v, documents r name = true ∧
      r.spec.read (.map (Datum.merge (Values.entries r.values) [(name, d)])) = .ok v ∧
      Replaces s t r { r with values := v } := by
  unfold setParameter at h
  split at h
  · cases h
  · rename_i r hr
    split at h
    · rename_i v hread
      cases h
      exact ⟨r, v, List.find?_some (p := (documents · name)) hr, hread, replaces_update hk hr rfl rfl⟩
    · cases h

theorem setText_ok {raw : String} (h : s.setText name raw = .ok t) :
    ∃ p d, s.parameters.find? (·.name == name) = some p ∧ parse? p.kind raw = some d ∧
      s.setParameter name d = .ok t := by
  unfold setText at h
  split at h
  · cases h
  · rename_i p hp
    split at h
    · cases h
    · rename_i d hd
      exact ⟨p, d, hp, hd, h⟩

theorem loadSection_ok (hk : s.OwnKeys)
    (h : s.loadSection key d = .ok t) : ∃ r v, r.spec.key = key ∧ overlay r key d = .ok v ∧
      Replaces s t r { r with values := v } := by
  unfold loadSection at h
  split at h
  · cases h
  · rename_i r hr
    obtain ⟨v, hv, h⟩ := except_bind_ok.mp h
    cases h
    exact ⟨r, v, by simpa using List.find?_some hr, hv, replaces_update hk hr rfl rfl⟩

theorem register_ok {component : Option String} (h : s.register spec component = .ok t) :
    (∀ r ∈ s.sections, r.spec.key ≠ spec.key) ∧
      t = ⟨s.sections ++ [{ spec := spec, component := component, values := spec.defaults }]⟩ := by
  unfold register at h
  split at h
  · cases h
  split at h
  · cases h
  rename_i hkey
  split at h
  · cases h
  · cases h
    refine ⟨fun r hr heq => hkey ?_, rfl⟩
    exact List.any_eq_true.mpr ⟨r, hr, beq_iff_eq.mpr heq⟩

/-! ## 4. States that can be reached -/

/-- Sections have keys of their own, values that fit, and are active unless a component is off. -/
structure Settled (s : Settings) : Prop where
  keys : s.OwnKeys
  fits : ∀ r ∈ s.sections, r.spec.Fits r.values
  plain : ∀ r ∈ s.sections, r.component = none → r.active = true

theorem Settled.found (hs : s.Settled) (h : s.find? spec = some r) :
    r ∈ s.sections ∧ r.spec = spec :=
  (find?_eq_some hs.keys).mp h

theorem Settled.replace (hs : s.Settled) (h : Replaces s t r r') (hfits : r'.spec.Fits r'.values)
    (hplain : r'.component = none → r'.active = true) : t.Settled := by
  have hk := h.ownKeys hs.keys
  have hcases : ∀ x ∈ t.sections, x = r' ∨ x ∈ s.sections := by
    intro x hx
    have hfound := (find?_eq_some hk).mpr ⟨hx, rfl⟩
    rw [h.after] at hfound
    split at hfound
    · exact .inl (Option.some.inj hfound).symm
    · exact .inr ((find?_eq_some hs.keys).mp hfound).1
  refine ⟨hk, fun x hx => ?_, fun x hx => ?_⟩
  · rcases hcases x hx with rfl | hx
    · exact hfits
    · exact hs.fits x hx
  · rcases hcases x hx with rfl | hx
    · exact hplain
    · exact hs.plain x hx

theorem Settled.replaceValues (hs : s.Settled)
    (h : Replaces s t r { r with values := v }) (hv : r.spec.Fits v) : t.Settled :=
  hs.replace h hv (hs.plain r (hs.found h.found).1)

/-- Every registered section is well-formed. -/
def SoundSections (s : Settings) : Prop := ∀ e ∈ s.registrations, e.1.WellFormed

/-- The second store has the sections of the first one, and is settled if the first one is. -/
def Stays (s t : Settings) : Prop :=
  s.Settled → s.SoundSections → t.Settled ∧ t.registrations = s.registrations

instance : IsPreorder Settings Stays where
  refl _ hs _ := ⟨hs, rfl⟩
  trans s t u hst htu hs hsound := by
    obtain ⟨ht, hreg⟩ := hst hs hsound
    obtain ⟨hu, hreg'⟩ := htu ht (by rwa [SoundSections, hreg])
    exact ⟨hu, hreg'.trans hreg⟩

theorem SoundSections.wellFormed (hs : s.SoundSections) (h : s.find? spec = some r) :
    r.spec.WellFormed := by
  obtain rfl : r.spec = spec := by simpa using List.find?_some h
  exact hs _ (registered_of_find? h)

theorem stays_setValues (hv : spec.Fits v) (h : s.setValues spec v = .ok t) :
    Stays s t := by
  intro hs _
  obtain ⟨r, rfl, hr⟩ := setValues_ok hs.keys h
  exact ⟨hs.replaceValues hr hv, hr.registrations⟩

theorem stays_setActive {id : String} {active : Bool} (h : s.setActive id active = .ok t) :
    Stays s t := by
  intro hs _
  obtain ⟨r, hid, hr⟩ := setActive_ok hs.keys h
  refine ⟨hs.replace hr (hs.fits r (hs.found hr.found).1) fun hnone => ?_, hr.registrations⟩
  rw [show r.component = none from hnone] at hid
  cases hid

theorem stays_setParameter (h : s.setParameter name d = .ok t) :
    Stays s t := by
  intro hs hsound
  obtain ⟨r, v, -, hread, hr⟩ := setParameter_ok hs.keys h
  have hv := (Section.fits_of_read (hsound.wellFormed hr.found) hread).1
  exact ⟨hs.replaceValues hr hv, hr.registrations⟩

theorem stays_setText {raw : String} (h : s.setText name raw = .ok t) : Stays s t := by
  obtain ⟨_, _, _, _, hset⟩ := setText_ok h
  exact stays_setParameter hset

theorem overlay_map {update : List (String × Datum)} :
    overlay r key (.map update) = .ok v ↔
      r.spec.read (.map (Datum.merge (Values.entries r.values) update)) = .ok v := by
  change (r.spec.read (.map (Datum.merge (Values.entries r.values) update))).mapError
    (fun e => CompileError.serialization e.message) = .ok v ↔ _
  cases r.spec.read (.map (Datum.merge (Values.entries r.values) update)) with
  | error e => exact ⟨fun h => (nomatch h), fun h => (nomatch h)⟩
  | ok w => exact ⟨fun h => congrArg Except.ok (Except.ok.inj h), fun h => congrArg Except.ok (Except.ok.inj h)⟩

theorem overlay_cases (h : overlay r key d = .ok v) :
    (∃ update, d = .map update ∧
      r.spec.read (.map (Datum.merge (Values.entries r.values) update)) = .ok v) ∨
      d = .null ∧ v = r.values := by
  cases d with
  | map update => exact .inl ⟨update, rfl, overlay_map.mp h⟩
  | null =>
    cases h
    exact .inr ⟨rfl, rfl⟩
  | _ => cases h

theorem fits_overlay (hs : r.spec.WellFormed)
    (hr : r.spec.Fits r.values) (h : overlay r key d = .ok v) : r.spec.Fits v := by
  rcases overlay_cases h with ⟨update, -, hread⟩ | ⟨-, rfl⟩
  · exact (Section.fits_of_read hs hread).1
  · exact hr

theorem stays_loadSection (h : s.loadSection key d = .ok t) :
    Stays s t := by
  intro hs hsound
  obtain ⟨r, v, -, hv, hr⟩ := loadSection_ok hs.keys h
  have hfits := fits_overlay (hsound.wellFormed hr.found) (hs.fits r (hs.found hr.found).1) hv
  exact ⟨hs.replaceValues hr hfits, hr.registrations⟩

theorem always_take {R : Settings → Settings → Prop} [IsPreorder Settings R]
    {f : Settings → Except CompileError Settings} (h : ∀ s t, f s = .ok t → R s t) :
    Always R (take f) := by
  intro s
  unfold behind take
  cases hf : f s with
  | ok t => exact h s t hf
  | error e => exact refl_of R s

theorem loadEntries_cons (key : String) (d : Datum) (rest : List (String × Datum)) :
    loadEntries ((key, d) :: rest) = (if key = disabledKey then loadDisabled d
      else take (·.loadSection key d)) >>= fun _ => loadEntries rest := by
  rw [loadEntries]
  split <;> rfl

theorem stays_loadDisabled (d : Datum) : Always Stays (loadDisabled d) := by
  unfold loadDisabled
  split
  · exact sequential_always.forM (fun id => always_take (R := Stays) fun _ _ => stays_setActive) _
  · exact sequential_always.pure ()
  · exact always_throw _

theorem stays_loadEntries (entries : List (String × Datum)) :
    Always Stays (loadEntries entries) := by
  induction entries with
  | nil => exact sequential_always.pure ()
  | cons e rest ih =>
    obtain ⟨key, d⟩ := e
    rw [loadEntries_cons]
    refine sequential_always.bind ?_ fun _ => ih
    split
    · exact stays_loadDisabled d
    · exact always_take (R := Stays) fun _ _ => stays_loadSection

theorem stays_load (d : Datum) : Always Stays (load d) := by
  cases d with
  | map entries => exact stays_loadEntries entries
  | null => exact sequential_always.pure ()
  | _ => exact always_throw _

theorem stays_loadText (text : String) : Always Stays (loadText text) := by
  unfold loadText
  split
  · exact stays_load _
  · exact always_throw _

/-- A store is reached from another one by changes of parameters, sections and components, and by
    documents, whether these are taken as a whole or not. -/
inductive Reached (start : Settings) : Settings → Prop
  | start : Reached start start
  | setValues {s t : Settings} {spec : Section} {v : Values} (h : Reached start s)
    (hv : spec.Fits v) (ht : s.setValues spec v = .ok t) : Reached start t
  | setActive {s t : Settings} {id : String} {active : Bool} (h : Reached start s)
    (ht : s.setActive id active = .ok t) : Reached start t
  | setParameter {s t : Settings} {name : String} {d : Datum} (h : Reached start s)
    (ht : s.setParameter name d = .ok t) : Reached start t
  | setText {s t : Settings} {name raw : String} (h : Reached start s)
    (ht : s.setText name raw = .ok t) : Reached start t
  | load {s : Settings} (h : Reached start s) (d : Datum) : Reached start (behind (load d) s)
  | loadText {s : Settings} (h : Reached start s) (text : String) :
    Reached start (behind (loadText text) s)

theorem Reached.stays {start : Settings} (h : Reached start s) : Stays start s := by
  induction h with
  | start => exact refl_of Stays start
  | setValues _ hv ht ih => exact trans_of Stays ih (stays_setValues hv ht)
  | setActive _ ht ih => exact trans_of Stays ih (stays_setActive ht)
  | setParameter _ ht ih => exact trans_of Stays ih (stays_setParameter ht)
  | setText _ ht ih => exact trans_of Stays ih (stays_setText ht)
  | load _ d ih => exact trans_of Stays ih (stays_load d _)
  | loadText _ text ih => exact trans_of Stays ih (stays_loadText text _)

/-! ## 5. Registration -/

/-- Registers sections one after another. -/
def registerAll (regs : List (Section × Option String)) : Except CompileError Settings :=
  regs.foldlM (fun s (spec, component) => s.register spec component) {}

/-- A section that has just been registered. -/
def fresh (e : Section × Option String) : Registered :=
  { spec := e.1, component := e.2, values := e.1.defaults }

theorem registerAll_from
    (hk : s.OwnKeys) (h : regs.foldlM (fun s (spec, component) => s.register spec component) s = .ok t) :
    t.OwnKeys ∧ t.sections = s.sections ++ regs.map fresh := by
  induction regs generalizing s with
  | nil =>
    cases h
    exact ⟨hk, by simp⟩
  | cons e regs ih =>
    obtain ⟨spec, component⟩ := e
    rw [List.foldlM_cons] at h
    obtain ⟨u, hu, h⟩ := except_bind_ok.mp h
    obtain ⟨hnew, rfl⟩ := register_ok hu
    have hku : (⟨s.sections ++ [fresh (spec, component)]⟩ : Settings).OwnKeys := by
      rw [ownKeys_iff] at hk ⊢
      rw [List.map_append, List.nodup_append]
      refine ⟨hk, List.nodup_singleton _, ?_⟩
      intro key hkey key' hkey'
      obtain ⟨r, hr, rfl⟩ := List.mem_map.mp hkey
      rw [List.mem_singleton.mp hkey']
      exact hnew r hr
    obtain ⟨ht, hsections⟩ := ih hku h
    exact ⟨ht, by rw [hsections]; simp [fresh]⟩

/-- Registered sections have their defaults, in the order of registration. -/
theorem registerAll_ok (h : registerAll regs = .ok s) :
    s.OwnKeys ∧ s.sections = regs.map fresh := by
  simpa using registerAll_from (by simp [OwnKeys, registrations]) h

theorem registerAll_settled (h : registerAll regs = .ok s)
    (hregs : ∀ e ∈ regs, e.1.WellFormed) : s.Settled ∧ s.registrations = regs := by
  obtain ⟨hk, hsections⟩ := registerAll_ok h
  refine ⟨⟨hk, ?_, ?_⟩, ?_⟩
  · intro r hr
    rw [hsections] at hr
    obtain ⟨e, he, rfl⟩ := List.mem_map.mp hr
    exact Section.fits_defaults (hregs e he)
  · intro r hr _
    rw [hsections] at hr
    obtain ⟨e, -, rfl⟩ := List.mem_map.mp hr
    rfl
  · rw [registrations, hsections, List.map_map]
    exact List.map_id regs

end QirProfile.Settings
