import QirProfile.Profile
import QirProfile.Settings.Sections

/-!
# Making profiles from settings

A generator holds the settings of some components. Each component has a section of its own and adds
passes to a profile, unless it is switched off. The components are asked in the order in which they
were registered.
-/

namespace QirProfile

/-- A component of a generator. -/
structure Component where
  id : String
  spec : Section
  /-- The passes that the component adds, given all settings and the values of its section. -/
  passes : Settings → Values → Except CompileError (List Pass)

/-- A generator of profiles. -/
structure Generator where
  settings : Settings := {}
  components : List Component := []

namespace Generator

/-- Adds a component and registers its section. -/
def addComponent (g : Generator) (c : Component) : Except CompileError Generator := do
  let s ← g.settings.register c.spec (some c.id)
  return ⟨s, g.components ++ [c]⟩

/-- A generator without components: only validation can be set. -/
def bare : Except CompileError Generator := do
  let s ← Settings.register {} ValidationSettings.spec none
  return ⟨s, []⟩

/-- The component that transforms programs. What rules it uses may depend on the settings. -/
def transformation (rules : Settings → Except CompileError (List (Rule Addresses))) :
    Component where
  id := "transformation-rules"
  spec := TransformSettings.spec
  passes settings values := do
    let s := TransformSettings.ofValues values
    let prior := if s.simplifyPriorTransform then
        [Pass.constantFolding, Pass.deadInstructionElimination] else []
    return prior ++ [Pass.transformation (← rules settings) s]

/-- The component that cleans programs up. -/
def cleanup : Component where
  id := "ir-passes"
  spec := CleanupSettings.spec
  passes _ values := .ok (Pass.cleanup (.ofValues values))

/-- A generator with a rule set of its own. -/
def withRules (rules : List (Rule Addresses)) : Except CompileError Generator := do
  let g ← bare
  let g ← g.addComponent (transformation fun _ => .ok rules)
  g.addComponent cleanup

/-- The rules that the settings ask for. -/
def rulesOf (s : Settings) : Except CompileError (List (Rule Addresses)) := do
  return (RuleSettings.ofValues (← s.values RuleSettings.spec)).rules

/-- The generator with the default components; its rules are set like everything else. -/
def standard : Except CompileError Generator := do
  let g ← bare
  let s ← g.settings.register RuleSettings.spec none
  let g ← ({ g with settings := s } : Generator).addComponent (transformation rulesOf)
  g.addComponent cleanup

/-- The passes of a component, none if it is switched off. -/
def passesOf (g : Generator) (c : Component) : Except CompileError (List Pass) := do
  if g.settings.isActive c.spec then c.passes g.settings (← g.settings.values c.spec)
  else return []

/-- The passes of components in order. -/
def collectPasses (g : Generator) : List Component → Except CompileError (List Pass)
  | [] => .ok []
  | c :: rest => do
    let here ← g.passesOf c
    return here ++ (← g.collectPasses rest)

/-- A profile with the present settings, and fresh allocators. -/
def newProfile (g : Generator) (name : String) (debug : Bool) : Except CompileError Profile := do
  let passes ← g.collectPasses g.components
  let v ← g.settings.values ValidationSettings.spec
  return { name := name, debug := debug, passes := passes, validator := some (.ofValues v) }

/-- A description of the generator. -/
def describe (g : Generator) : String :=
  "ProfileGenerator \x7b configuration_manager: ConfigurationManager \x7b sections: " ++
    Profile.quotedNames (g.settings.sections.map (·.spec.key)) ++ " \x7d, components: " ++
    Profile.quotedNames (g.components.map (·.id)) ++ " \x7d"

end Generator

end QirProfile
