import Mathlib.Data.List.Pairwise
import QirProfile.CommandLine.Run
import QirProfile.Proofs.Document.Reading
import QirProfile.Proofs.Settings.Documents
import QirProfile.Proofs.Steps

/-!
# The layers of a run's settings

A run starts from the settings of the generator, and puts the validation settings of the profile, a
document and the options of the command line over them.
-/

namespace QirProfile

variable {f : Field} {p : Parameter} {name path text : String} {session session' : Session}

/-! ## 1. The standard sections -/

/-- The fields are what is documented, and no two sections have a field of the same name. -/
structure Settings.SoundParameters (regs : List (Section × Option String)) : Prop where
  documented : ∀ e ∈ regs, e.1.docs.map (·.name) = e.1.fields.map (·.name)
  distinct : (regs.flatMap fun e => e.1.fields.map (·.name)).Nodup

namespace Generator

/-- What the standard generator registers. -/
def standardRegistrations : List (Section × Option String) :=
  [(ValidationSettings.spec, none), (RuleSettings.spec, none),
   (TransformSettings.spec, some "transformation-rules"), (CleanupSettings.spec, some "ir-passes")]

theorem standard_settings {g : Generator} (h : standard = .ok g) :
    Settings.registerAll standardRegistrations = .ok g.settings := by
  have hstandard : standard = .ok
      ⟨⟨standardRegistrations.map Settings.fresh⟩, [transformation rulesOf, cleanup]⟩ := rfl
  rw [hstandard] at h
  cases h
  rfl

theorem sound_standard : Settings.SoundRegistrations standardRegistrations :=
  ⟨by decide, by decide, by decide⟩

theorem soundParameters_standard : Settings.SoundParameters standardRegistrations :=
  ⟨by decide, by decide⟩

end Generator

namespace SettingKind

/-- What kind of text a setting is given as. -/
def parameter : SettingKind → ParameterKind
  | .flag => .flag
  | .unsigned _ | .signed _ => .integer
  | .text => .text
  | .texts => .list

theorem ofDatum_eq {k : SettingKind} {v : SettingValue} (h : k.admits v = true) :
    ParameterKind.ofDatum v.datum = k.parameter := by
  cases k <;> cases v <;> first
    | rfl
    | cases h

end SettingKind

namespace Settings

variable {s t : Settings} {r : Registered} {spec : Section} {name : String} {d : Datum}
  {regs : List (Section × Option String)}

/-! ## 2. Parameters -/

theorem SoundParameters.documents_iff (h : SoundParameters s.registrations)
    (hr : r ∈ s.sections) : documents r name = true ↔ ∃ f ∈ r.spec.fields, f.name = name := by
  have hnames := h.documented _ (List.mem_map.mpr ⟨r, hr, rfl⟩)
  rw [documents, List.any_eq_true]
  simp only [beq_iff_eq]
  rw [← List.mem_map, ← List.mem_map, hnames]

theorem SoundParameters.section_of_field (h : SoundParameters regs) {a b : Section}
    {c c' : Option String} {f' : Field} (ha : (a, c) ∈ regs) (hb : (b, c') ∈ regs)
    (hf : f ∈ a.fields) (hf' : f' ∈ b.fields) (hname : f.name = f'.name) : a = b := by
  by_contra hne
  have hsymm : Std.Symm (Function.onFun List.Disjoint
      fun e : Section × Option String => e.1.fields.map (·.name)) := ⟨fun _ _ h _ ha hb => h hb ha⟩
  have hpair : (a, c) ≠ (b, c') := fun heq => hne (congrArg Prod.fst heq)
  exact (List.nodup_flatMap.mp h.distinct).2.forall ha hb hpair
    (List.mem_map.mpr ⟨f, hf, rfl⟩) (List.mem_map.mpr ⟨f', hf', hname.symm⟩)

/-- The section is like the other one but for its values. -/
structure Revalued (r r' : Registered) : Prop where
  component : r'.component = r.component
  active : r'.active = r.active

theorem find?_setParameter (hs : s.Settled) (hregs : SoundRegistrations s.registrations)
    (hparams : SoundParameters s.registrations) (h : s.setParameter name d = .ok t)
    (hr : s.find? spec = some r) : ∃ r', t.find? spec = some r' ∧ Revalued r r' ∧
      ∀ f ∈ spec.fields,
        r'.values.datum? f.name = if f.name = name then some d else r.values.datum? f.name := by
  obtain ⟨r₀, v, hdoc, hread, hreplaces⟩ := setParameter_ok hs.keys h
  obtain ⟨hmem, rfl⟩ := hs.found hr
  obtain ⟨hmem₀, -⟩ := hs.found hreplaces.found
  obtain ⟨f₀, hf₀, hname⟩ := (hparams.documents_iff hmem₀).mp hdoc
  have hafter := hreplaces.after r.spec
  by_cases hspec : r.spec = r₀.spec
  · obtain rfl : r₀ = r := Option.some.inj (hreplaces.found.symm.trans (hspec ▸ hr))
    rw [if_pos rfl] at hafter
    refine ⟨_, hafter, ⟨rfl, rfl⟩, fun f hf => ?_⟩
    have hwf := SoundSections.wellFormed hregs.wellFormed hr
    have hdatum := ((Section.read_merge_iff hwf (hs.fits r₀ hmem) (by simp)).mp hread).2 f hf
    rw [hdatum, lookup_cons_ite]
    by_cases hfield : f.name = name <;> simp [hfield]
  · rw [if_neg hspec, hr] at hafter
    refine ⟨r, hafter, ⟨rfl, rfl⟩, fun f hf => ?_⟩
    rw [if_neg]
    rintro rfl
    exact hspec (hparams.section_of_field (registered_of_find? hr)
      (registered_of_find? hreplaces.found) hf hf₀ hname.symm)

theorem kind_of_field (hs : s.Settled) (hparams : SoundParameters s.registrations)
    (hp : p ∈ s.parameters) (hr : s.find? spec = some r) (hf : f ∈ spec.fields)
    (hname : f.name = p.name) : p.kind = f.kind.parameter := by
  obtain ⟨x, hx, hpx⟩ := List.mem_flatMap.mp hp
  obtain ⟨doc, hdoc, rfl⟩ := List.mem_map.mp hpx
  obtain ⟨hmem, rfl⟩ := hs.found hr
  have hdocuments : documents x doc.name = true :=
    List.any_eq_true.mpr ⟨doc, hdoc, beq_self_eq_true doc.name⟩
  obtain ⟨f', hf', hname'⟩ := (hparams.documents_iff hx).mp hdocuments
  have hspec : x.spec = r.spec := hparams.section_of_field (List.mem_map.mpr ⟨x, hx, rfl⟩)
    (List.mem_map.mpr ⟨r, hmem, rfl⟩) hf' hf (hname'.trans hname.symm)
  obtain rfl : x = r := List.inj_on_of_nodup_map (ownKeys_iff.mp hs.keys) hx hmem
    (congrArg Section.key hspec)
  obtain ⟨v, hv, hadmits⟩ := (hs.fits x hx).lookup hf
  rw [show f.name = doc.name from hname] at hv
  rw [Parameter.kind, ← SettingKind.ofDatum_eq hadmits, hv]
  rfl

theorem SoundParameters.mem_parameters (h : SoundParameters s.registrations)
    (hr : r ∈ s.sections) (hf : f ∈ r.spec.fields) :
    f.name ∈ s.parameters.map (·.name) := by
  obtain ⟨doc, hdoc, hname⟩ := List.any_eq_true.mp ((h.documents_iff hr).mpr ⟨f, hf, rfl⟩)
  exact List.mem_map.mpr ⟨_, List.mem_flatMap.mpr ⟨r, hr, List.mem_map.mpr ⟨doc, hdoc, rfl⟩⟩,
    beq_iff_eq.mp hname⟩

end Settings

namespace CommandLine

open Settings

variable {s t : Settings} {r : Registered} {spec : Section} {g : Given}

/-! ## 3. Options -/

/-- The text that the options give for a parameter. -/
def Given.raw? (g : Given) (kind : ParameterKind) (name : String) : Option String :=
  match kind with
  | .flag =>
    if g.hasFlag name then some "true"
    else if g.hasFlag (negated name) then some "false"
    else none
  | _ => g.value? name

/-- A value under the options: what the text for its parameter means, or the value itself. -/
def Given.override (g : Given) (kind : ParameterKind) (name : String) (old : Option Datum) :
    Option Datum :=
  match g.raw? kind name with
  | some raw => parse? kind raw
  | none => old

theorem Given.override_some {kind : ParameterKind} {raw : String} {old : Option Datum}
    (h : g.raw? kind name = some raw) : g.override kind name old = parse? kind raw := by
  rw [Given.override, h]

theorem Given.override_none {kind : ParameterKind} {old : Option Datum}
    (h : g.raw? kind name = none) : g.override kind name old = old := by
  rw [Given.override, h]

theorem applyParameter_eq (g : Given) (s : Settings) (p : Parameter) :
    applyParameter g s p = match g.raw? p.kind p.name with
      | some raw => s.setText p.name raw
      | none => .ok s := by
  unfold applyParameter Given.raw?
  cases p.kind with
  | flag =>
    simp only
    split
    · rfl
    split <;> rfl
  | _ => rfl

theorem stays_applyParameter (h : applyParameter g s p = .ok t) : Stays s t := by
  rw [applyParameter_eq] at h
  split at h
  · exact stays_setText h
  · cases h
    exact refl_of Stays s

theorem find?_applyParameter (hs : s.Settled)
    (hregs : SoundRegistrations s.registrations) (hparams : SoundParameters s.registrations)
    (hkind : ∀ f ∈ spec.fields, f.name = p.name → p.kind = f.kind.parameter)
    (h : applyParameter g s p = .ok t) (hr : s.find? spec = some r) :
    ∃ r', t.find? spec = some r' ∧ Revalued r r' ∧ ∀ f ∈ spec.fields,
      r'.values.datum? f.name = if f.name = p.name
        then g.override f.kind.parameter f.name (r.values.datum? f.name)
        else r.values.datum? f.name := by
  rw [applyParameter_eq] at h
  split at h
  · rename_i raw hraw
    obtain ⟨p', d, hp', hd, hset⟩ := setText_ok h
    have hname' : p'.name = p.name := by simpa using List.find?_some hp'
    obtain ⟨r', hr', hrevalued, hvalues⟩ := find?_setParameter hs hregs hparams hset hr
    refine ⟨r', hr', hrevalued, fun f hf => ?_⟩
    rw [hvalues f hf]
    by_cases hname : f.name = p.name
    · have hk' := kind_of_field hs hparams (List.mem_of_find?_eq_some hp') hr hf
        (hname.trans hname'.symm)
      rw [hk', ← hkind f hf hname] at hd
      rw [if_pos hname, if_pos hname, ← hkind f hf hname, hname, Given.override_some hraw, hd]
    · rw [if_neg hname, if_neg hname]
  · rename_i hraw
    cases h
    refine ⟨r, hr, ⟨rfl, rfl⟩, fun f hf => ?_⟩
    by_cases hname : f.name = p.name
    · rw [if_pos hname, ← hkind f hf hname, hname, Given.override_none hraw]
    · rw [if_neg hname]

theorem foldlM_stays {α : Type} {f : Settings → α → Except CompileError Settings} {as : List α}
    (hf : ∀ s a t, f s a = .ok t → Stays s t) (h : as.foldlM f s = .ok t) : Stays s t := by
  induction as generalizing s with
  | nil =>
    cases h
    exact refl_of Stays _
  | cons a as ih =>
    rw [List.foldlM_cons] at h
    obtain ⟨u, hu, h⟩ := except_bind_ok.mp h
    exact trans_of Stays (hf s a u hu) (ih h)

theorem find?_applyParameters {ps : List Parameter} (hs : s.Settled)
    (hregs : SoundRegistrations s.registrations) (hparams : SoundParameters s.registrations)
    (hkind : ∀ p ∈ ps, ∀ f ∈ spec.fields, f.name = p.name → p.kind = f.kind.parameter)
    (h : ps.foldlM (applyParameter g) s = .ok t) (hr : s.find? spec = some r) :
    ∃ r', t.find? spec = some r' ∧ Revalued r r' ∧ ∀ f ∈ spec.fields,
      r'.values.datum? f.name = if f.name ∈ ps.map (·.name)
        then g.override f.kind.parameter f.name (r.values.datum? f.name)
        else r.values.datum? f.name := by
  induction ps generalizing s r with
  | nil =>
    cases h
    exact ⟨r, hr, ⟨rfl, rfl⟩, fun f _ => by simp⟩
  | cons p ps ih =>
    rw [List.foldlM_cons] at h
    obtain ⟨u, hu, hlater⟩ := except_bind_ok.mp h
    obtain ⟨hsu, hregistrations⟩ := stays_applyParameter hu hs hregs.wellFormed
    obtain ⟨r₁, hr₁, hrevalued₁, hvalues₁⟩ :=
      find?_applyParameter hs hregs hparams (hkind p List.mem_cons_self) hu hr
    obtain ⟨r', hr', hrevalued, hvalues⟩ := ih hsu (hregistrations ▸ hregs)
      (hregistrations ▸ hparams) (fun q hq => hkind q (List.mem_cons_of_mem _ hq)) hlater hr₁
    refine ⟨r', hr', ⟨hrevalued.component.trans hrevalued₁.component,
      hrevalued.active.trans hrevalued₁.active⟩, fun f hf => ?_⟩
    rw [hvalues f hf, hvalues₁ f hf]
    by_cases hp : f.name = p.name
    · rw [if_pos hp, List.map_cons, if_pos (List.mem_cons.mpr (.inl hp))]
      unfold Given.override
      cases g.raw? f.kind.parameter f.name <;> simp
    · simp [hp]

/-- The components that the options switch off. -/
def switched (g : Given) (cs : List ComponentState) : List String :=
  (cs.map (·.id)).filter fun id => g.hasFlag (disabling id)

theorem contains_switched {id : String} (hr : r ∈ s.sections) (hid : r.component = some id) :
    (switched g s.components).contains id = g.hasFlag (disabling id) := by
  have hmem : id ∈ s.components.map (·.id) := by
    refine List.mem_map.mpr ⟨⟨id, r.spec.key, r.active⟩, ?_, rfl⟩
    exact List.mem_filterMap.mpr ⟨r, hr, by rw [hid]; rfl⟩
  rw [Bool.eq_iff_iff, List.contains_iff_mem, switched, List.mem_filter]
  exact and_iff_right hmem

theorem applyComponents_eq {cs : List ComponentState} (h : cs.foldlM (applyComponent g) s = .ok t) :
    ((switched g cs).forM fun id => take (·.setActive id false)) s = .ok () t := by
  induction cs generalizing s with
  | nil =>
    cases h
    rfl
  | cons c cs ih =>
    rw [List.foldlM_cons] at h
    obtain ⟨u, hu, hlater⟩ := except_bind_ok.mp h
    unfold applyComponent at hu
    split at hu
    · rename_i hflag
      have hfirst : switched g (c :: cs) = c.id :: switched g cs := by simp [switched, hflag]
      rw [hfirst]
      exact (bind_of_ok (take_of_ok hu) _).trans (ih hlater)
    · rename_i hflag
      have hnone : switched g (c :: cs) = switched g cs := by simp [switched, hflag]
      cases hu
      rw [hnone]
      exact ih hlater

/-! ## 4. A run's settings -/

theorem lift_ok {α : Type} {a : Except CompileError α} {x : α}
    (h : Command.lift a session = .ok x session') : a = .ok x ∧ session' = session := by
  cases a with
  | ok y =>
    cases h
    exact ⟨rfl, rfl⟩
  | error e => cases h

theorem readFile_ok {doing : String}
    (h : Command.readFile doing path session = .ok text session') :
    session.folder.read path = .ok text ∧ session' = session := by
  obtain ⟨_, _, hget, h⟩ := bind_ok h
  obtain ⟨rfl, rfl⟩ := get_ok hget
  cases hread : session.folder.read path with
  | ok content =>
    rw [hread] at h
    cases h
    exact ⟨rfl, rfl⟩
  | error reason =>
    rw [hread] at h
    cases h

/-- The document that the options ask for: that of a file, or nothing. -/
def Loads (g : Given) (folder : Folder) (doc : Datum) : Prop :=
  match g.value? "load-config" with
  | none => doc = .null
  | some path => ∃ text, folder.read path = .ok text ∧ Yaml.read? text = some doc

theorem loadSettings_ok (h : loadSettings path text s = .ok t) :
    ∃ doc, Yaml.read? text = some doc ∧ load doc s = .ok () t := by
  unfold loadSettings loadText at h
  cases hread : Yaml.read? text with
  | none =>
    rw [hread] at h
    cases h
  | some doc =>
    rw [hread] at h
    cases hload : load doc s with
    | ok _ u =>
      simp only [hload] at h
      cases h
      exact ⟨doc, rfl, hload⟩
    | error e u =>
      simp only [hload] at h
      cases h

theorem assemble_ok (h : assemble g s session = .ok t session') :
    ∃ preset doc u v, ValidationSettings.ofProfile (profileName g) = .ok preset ∧
      s.setValues ValidationSettings.spec preset.toValues = .ok u ∧ Loads g session.folder doc ∧
      load doc u = .ok () v ∧ applyGiven g v = .ok t := by
  unfold assemble at h
  obtain ⟨u, session₁, hlift, hrest⟩ := bind_ok h
  obtain ⟨hprofile, rfl⟩ := lift_ok hlift
  obtain ⟨preset, hpreset, hset⟩ := except_bind_ok.mp hprofile
  suffices hdoc : ∃ doc v, Loads g session₁.folder doc ∧ load doc u = .ok () v ∧
      applyGiven g v = .ok t by
    obtain ⟨doc, v, hloads, hv, hgiven⟩ := hdoc
    exact ⟨preset, doc, u, v, hpreset, hset, hloads, hv, hgiven⟩
  unfold Loads
  cases hpath : g.value? "load-config" with
  | none =>
    simp only [hpath] at hrest
    obtain ⟨_, _, hpure, hgiven⟩ := bind_ok hrest
    obtain ⟨rfl, rfl⟩ := pure_ok hpure
    exact ⟨.null, _, rfl, rfl, (lift_ok hgiven).1⟩
  | some path =>
    simp only [hpath] at hrest
    obtain ⟨text, _, hfile, hsettings⟩ := bind_ok hrest
    obtain ⟨hread, rfl⟩ := readFile_ok hfile
    cases hload : loadSettings path text u with
    | ok v =>
      simp only [hload] at hsettings
      obtain ⟨_, _, hpure, hgiven⟩ := bind_ok hsettings
      obtain ⟨rfl, rfl⟩ := pure_ok hpure
      obtain ⟨doc, hdoc, hv⟩ := loadSettings_ok hload
      exact ⟨doc, _, ⟨text, hread, hdoc⟩, hv, (lift_ok hgiven).1⟩
    | error failure =>
      simp only [hload] at hsettings
      obtain ⟨_, _, hthrow, -⟩ := bind_ok hsettings
      cases hthrow

/-- The values that a section starts with under the preset of a profile. -/
def baseValues (preset : ValidationSettings) (spec : Section) : Values :=
  if spec = ValidationSettings.spec then preset.toValues else spec.defaults

theorem fits_preset (preset : ValidationSettings) :
    ValidationSettings.spec.Fits preset.toValues :=
  ⟨rfl, by simp [ValidationSettings.spec, ValidationSettings.toValues, Field.onFlag, Field.offFlag,
    SettingKind.admits, List.lookup_cons]⟩

theorem find?_preset {generator : Generator} {preset : ValidationSettings}
    (hgenerator : Generator.standard = .ok generator)
    (h : generator.settings.setValues ValidationSettings.spec preset.toValues = .ok t)
    {component : Option String} (hspec : (spec, component) ∈ Generator.standardRegistrations) :
    ∃ r, t.find? spec = some r ∧ r.component = component ∧ r.active = true ∧
      r.values = baseValues preset spec := by
  have hregister := Generator.standard_settings hgenerator
  obtain ⟨hs, hregistrations⟩ :=
    registerAll_settled hregister Generator.sound_standard.wellFormed
  rw [← hregistrations] at hspec
  obtain ⟨r, hr, hcomponent⟩ := find?_of_registered hs.keys hspec
  obtain ⟨hmem, rfl⟩ := hs.found hr
  have hfresh : r = fresh (r.spec, r.component) := by
    rw [(registerAll_ok hregister).2] at hmem
    obtain ⟨e, -, rfl⟩ := List.mem_map.mp hmem
    rfl
  have hactive : r.active = true := by
    rw [hfresh]
    rfl
  obtain ⟨r₀, hr₀, hreplaces⟩ := setValues_ok hs.keys h
  have hafter := hreplaces.after r.spec
  rw [hr₀] at hafter
  unfold baseValues
  split at hafter
  · rename_i heq
    obtain rfl : r₀ = r := Option.some.inj
      (hreplaces.found.symm.trans ((hr₀.trans heq.symm) ▸ hr))
    exact ⟨_, hafter, hcomponent, hactive, by rw [if_pos heq]⟩
  · rename_i hne
    refine ⟨r, hafter.trans hr, hcomponent, hactive, ?_⟩
    rw [if_neg hne, hfresh]
    rfl

/-- **A section under all layers**: the command line counts before the document, the document before
the preset of the profile, and the component is off if the document or an option says so. -/
structure Layered (g : Given) (doc : Datum) (preset : ValidationSettings) (r : Registered) :
    Prop where
  given : ∀ f ∈ r.spec.fields, ∀ raw, g.raw? f.kind.parameter f.name = some raw →
    ∃ d, parse? f.kind.parameter raw = some d ∧ r.values.datum? f.name = some d
  document : ∀ f ∈ r.spec.fields, g.raw? f.kind.parameter f.name = none →
    ∀ d, doc.setting? r.spec.key f.name = some d → r.values.datum? f.name = some d
  base : ∀ f ∈ r.spec.fields, g.raw? f.kind.parameter f.name = none →
    doc.setting? r.spec.key f.name = none →
    r.values.datum? f.name = (baseValues preset r.spec).datum? f.name
  active : ∀ id, r.component = some id →
    (r.active = false ↔ doc.switchesOff id = true ∨ g.hasFlag (disabling id) = true)

/-- The settings of a run are layered: options over the document, over the validation of the
    profile, over the defaults. -/
theorem assemble_layers {generator : Generator} {session session' : Session}
    (hgenerator : Generator.standard = .ok generator)
    (h : assemble g generator.settings session = .ok t session') :
    ∃ preset doc, ValidationSettings.ofProfile (profileName g) = .ok preset ∧
      Loads g session.folder doc ∧ t.registrations = Generator.standardRegistrations ∧
      ∀ r ∈ t.sections, Layered g doc preset r := by
  obtain ⟨preset, doc, u, v, hpreset, hset, hloads, hload, hgiven⟩ := assemble_ok h
  refine ⟨preset, doc, hpreset, hloads, ?_⟩
  have hregs := Generator.sound_standard
  have hparams := Generator.soundParameters_standard
  have hdoc : doc.OwnKeys := by
    unfold Loads at hloads
    split at hloads
    · rw [hloads]
      exact ⟨List.nodup_nil, fun _ _ hentry => nomatch hentry⟩
    · obtain ⟨text, -, hread⟩ := hloads
      exact Yaml.ownKeys_read? hread
  -- Every layer keeps the sections, and values that fit them.
  obtain ⟨hs, hregistrations⟩ :=
    registerAll_settled (Generator.standard_settings hgenerator) hregs.wellFormed
  obtain ⟨hsu, hregu⟩ := stays_setValues (fits_preset preset) hset hs
    (by rw [SoundSections, hregistrations]; exact hregs.wellFormed)
  rw [hregistrations] at hregu
  have hregsu : SoundRegistrations u.registrations := hregu ▸ hregs
  obtain ⟨hsv, hregv⟩ := (stays_load doc).keeps u () v hload hsu hregsu.wellFormed
  rw [hregu] at hregv
  have hregsv : SoundRegistrations v.registrations := hregv ▸ hregs
  have hparamsv : SoundParameters v.registrations := hregv ▸ hparams
  obtain ⟨w, hw, hcomponents⟩ := except_bind_ok.mp hgiven
  obtain ⟨hsw, hregw⟩ := foldlM_stays (fun _ _ _ => stays_applyParameter) hw hsv hregsv.wellFormed
  rw [hregv] at hregw
  have hregsw : SoundRegistrations w.registrations := hregw ▸ hregs
  have hoff := applyComponents_eq hcomponents
  obtain ⟨hst, hregt⟩ := (sequential_always.forM
    (fun id => always_take (R := Stays) fun _ _ => stays_setActive) _).keeps w _ t hoff hsw
      hregsw.wellFormed
  rw [hregw] at hregt
  refine ⟨hregt, fun r hr => ?_⟩
  -- The section is followed from the first layer to the last one.
  have hfound := (find?_eq_some hst.keys).mpr ⟨hr, rfl⟩
  obtain ⟨r₁, hr₁, hcomponent₁, hactive₁, hvalues₁⟩ :=
    find?_preset hgenerator hset (hregt ▸ registered_of_find? hfound)
  obtain ⟨hmem₁, hspec₁⟩ := hsu.found hr₁
  obtain ⟨r₂, hr₂, htaken⟩ := find?_load hsu hregsu hdoc hload hr₁
  obtain ⟨hmem₂, hspec₂⟩ := hsv.found hr₂
  obtain ⟨r₃, hr₃, hrevalued, hvalues₃⟩ := find?_applyParameters hsv hregsv hparamsv
    (fun p hp f hf hname => kind_of_field hsv hparamsv hp hr₂ hf hname) hw hr₂
  obtain ⟨hmem₃, -⟩ := hsw.found hr₃
  obtain rfl : r = without (switched g w.components) r₃ :=
    Option.some.inj (hfound.symm.trans (find?_switchOff hsw hregsw hoff hr₃))
  have hvalues : ∀ f ∈ r₃.spec.fields, r₃.values.datum? f.name =
      g.override f.kind.parameter f.name ((doc.setting? r₃.spec.key f.name).or
        ((baseValues preset r₃.spec).datum? f.name)) := by
    intro f hf
    have hnamed := hparamsv.mem_parameters hmem₂ (hspec₂ ▸ hf)
    rw [hvalues₃ f hf, if_pos hnamed, htaken.values f (hspec₁ ▸ hf), hspec₁, hvalues₁]
    rfl
  have hcomponent : r₃.component = r₁.component :=
    hrevalued.component.trans htaken.component
  refine ⟨fun f hf raw hraw => ?_, fun f hf hraw d hd => ?_, fun f hf hraw hd => ?_,
    fun id hid => ?_⟩
  · obtain ⟨x, hx, -⟩ := (hsw.fits r₃ hmem₃).lookup hf
    have hdatum : r₃.values.datum? f.name = some x.datum := by
      rw [Values.datum?, hx]
      rfl
    refine ⟨x.datum, ?_, hdatum⟩
    rw [← hdatum, hvalues f hf, Given.override_some hraw]
  · change r₃.values.datum? f.name = some d
    change doc.setting? r₃.spec.key f.name = some d at hd
    rw [hvalues f hf, Given.override_none hraw, hd]
    rfl
  · change r₃.values.datum? f.name = _
    change doc.setting? r₃.spec.key f.name = none at hd
    rw [hvalues f hf, Given.override_none hraw, hd]
    rfl
  · change r₃.component = some id at hid
    change (r₃.active && !r₃.component.any (switched g w.components).contains) = false ↔ _
    rw [hrevalued.active, htaken.active, hactive₁, ← hcomponent, hid, Option.any_some,
      Option.any_some, contains_switched hmem₃ hid]
    cases doc.switchesOff id <;> cases g.hasFlag (disabling id) <;> simp

/-- A run with all layers: a profile, a document, and options over both. -/
def layeredRun : Given where
  flags := ["no-reuse-qubits", "disable-ir-passes"]
  values := [("profile", "base"), ("load-config", "c"), ("max-recursion", "7")]

/-- The document of that run. -/
def layeredText : String :=
  "transformation-rules-pass:\n  max-recursion: 5\n  reuse-results: false\n"

/-- The folder of that run. -/
def layeredFolder : Folder where
  files := [("c", layeredText)]

theorem read_layeredFolder : layeredFolder.read "c" = .ok layeredText := by
  have hsplit : "c".splitOn "/" = ["c"] := by
    rw [String.splitOn, if_neg (by decide), String.splitOnAux, if_neg (by decide +kernel),
      if_neg (by decide +kernel), String.splitOnAux, if_pos (by decide +kernel)]
    decide +kernel
  have hplace : Folder.place "c" = ["c"] := by
    unfold Folder.place
    rw [hsplit]
    decide +kernel
  have hcheck : Folder.check "c" = .ok () := by
    have hnull : "c".contains '\x00' = false := by simp
    rw [Folder.check, hnull]
    decide +kernel
  have hshort : ¬ 255 < "c".utf8ByteSize := by decide +kernel
  have hlook : layeredFolder.look [] "c" = .ok (["c"], .file layeredText) := by
    simp [Folder.look, Folder.hasFolder, Folder.fileAt?, layeredFolder, hplace, hshort]
  have hstart : Folder.start "c" = [] := by decide +kernel
  simp only [Folder.read, Folder.follow, hcheck, hsplit, hstart]
  exact except_bind_ok.mpr ⟨_, hlook, rfl⟩

theorem assemble_of_ok {u v : Settings}
    (hpath : g.value? "load-config" = some path) (hread : session.folder.read path = .ok text)
    (hu : s.withProfile (profileName g) = .ok u) (hv : loadSettings path text u = .ok v)
    (ht : applyGiven g v = .ok t) : assemble g s session = .ok t session := by
  have hlift : Command.lift (s.withProfile (profileName g)) session = .ok u session := by
    rw [hu]
    rfl
  have hfile : Command.readFile "Failed to read configuration" path session =
      .ok text session := by
    refine (get_bind _ session).trans ?_
    rw [hread]
    rfl
  unfold assemble
  rw [bind_of_ok hlift]
  simp only [hpath]
  rw [bind_of_ok hfile]
  simp only [hv]
  rw [bind_of_ok (rfl : (pure v : Command Settings) session = .ok v session), ht]
  rfl

theorem assemble_layeredRun : ∃ generator t session', Generator.standard = .ok generator ∧
    assemble layeredRun generator.settings { folder := layeredFolder } = .ok t session' ∧
    ∃ preset doc, ValidationSettings.ofProfile (profileName layeredRun) = .ok preset ∧
      Loads layeredRun layeredFolder doc ∧
      t.registrations = Generator.standardRegistrations ∧
      ∀ r ∈ t.sections, Layered layeredRun doc preset r := by
  obtain ⟨generator, hgenerator, hsettings⟩ : ∃ generator, Generator.standard = .ok generator ∧
      generator.settings = ⟨Generator.standardRegistrations.map fresh⟩ := ⟨_, rfl, rfl⟩
  have hlayers : ((generator.settings.withProfile "base").toOption.bind fun u =>
      (loadSettings "c" layeredText u).toOption.bind fun v =>
        (applyGiven layeredRun v).toOption).isSome = true := by
    rw [hsettings]
    decide +kernel
  obtain ⟨t, hlayers⟩ := Option.isSome_iff_exists.mp hlayers
  obtain ⟨u, hu, hlayers⟩ := Option.bind_eq_some_iff.mp hlayers
  obtain ⟨v, hv, ht⟩ := Option.bind_eq_some_iff.mp hlayers
  have hrun : assemble layeredRun generator.settings { folder := layeredFolder } =
      .ok t { folder := layeredFolder } :=
    assemble_of_ok rfl read_layeredFolder (ok_of_toOption hu) (ok_of_toOption hv)
      (ok_of_toOption ht)
  have hlayered := assemble_layers hgenerator hrun
  exact ⟨generator, t, _, hgenerator, hrun, hlayered⟩

end CommandLine

end QirProfile
