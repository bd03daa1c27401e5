import CodeTidy.Pass
import CodeTidy.Settings
import CodeTidy.Rule.Registry

/-!
# The engine

An engine is made from settings and runs the enabled rules over sources.  Sources
do not depend on each other, so running many is running each.
-/

namespace CodeTidy

/-- One compilation unit: a store and the root of its tree. -/
structure Source where
  store : Store
  root : NodeId
deriving DecidableEq

/-- Checked settings and the rules they enable. -/
structure Engine where
  settings : Settings
  rules : List (Rule Unit)

namespace Engine

def unknownRule? (settings : Settings) : Option String :=
  (settings.enabledRules.getD []).find? (fun name => !Registry.isKnown name)

def isEnabled (settings : Settings) (rule : Rule Unit) : Bool :=
  match settings.enabledRules with
  | some names => names.contains rule.name
  | none => true

/-- An engine for the settings, which must allow a pass and name only known rules. -/
def make (settings : Settings) : Except SetupError Engine := do
  settings.validate
  match unknownRule? settings with
  | some name => throw (.unknownRule name)
  | none => return ⟨settings, Registry.rules.filter (isEnabled settings)⟩

def ruleNames (engine : Engine) : List String :=
  engine.rules.map Rule.name

/-- The run that the engine makes over a source. -/
def schedule (engine : Engine) (cancelled : Bool) : Schedule Unit where
  rules := engine.rules
  options := engine.settings.options
  maxPasses := engine.settings.maxPasses
  cancelled := cancelled

def run (engine : Engine) (source : Source) (cancelled : Bool) :
    Except Fault (Report × Source) :=
  match (((engine.schedule cancelled).run source.root).run ()).run source.store with
  | .ok ((report, _), store) => .ok (report, ⟨store, source.root⟩)
  | .error fault => .error fault

def runAll (engine : Engine) (sources : List Source) (cancelled : Bool) :
    List (Except Fault (Report × Source)) :=
  sources.map (fun source => engine.run source cancelled)

end Engine

end CodeTidy
