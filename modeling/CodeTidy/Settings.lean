import CodeTidy.Json.Reader
import CodeTidy.Rule.Basic

/-!
# Settings

Which rules run, how many passes are made at most, and for which language version.
Settings are written as JSON; every field may be left out and then has its default:

    { "language_level": 8, "max_iterations": 10, "enabled_rules": ["PushNegationDown"] }
-/

namespace CodeTidy

/-- Why settings, a catalog or an engine could not be made. -/
inductive SetupError where
  /-- A text is not JSON or does not have the expected fields. -/
  | malformed
  /-- The settings allow no pass at all. -/
  | noPasses
  /-- No rule has this name. -/
  | unknownRule (name : String)
deriving DecidableEq

namespace SetupError

def message : SetupError → String
  | malformed => "Malformed JSON"
  | noPasses => "Invalid configuration: max_iterations must be at least 1"
  | unknownRule name => "Unknown rule: " ++ name

end SetupError

structure Settings where
  /-- Oldest language version the code must still run on. -/
  languageLevel : Nat := 8
  /-- Limit on the passes over one unit. -/
  maxPasses : Nat := 10
  /-- Names of the rules to run; without a list every rule runs. -/
  enabledRules : Option (List String) := none
deriving DecidableEq

namespace Settings

def validate (settings : Settings) : Except SetupError Unit :=
  if settings.maxPasses = 0 then .error .noPasses else .ok ()

def options (settings : Settings) : Options where
  languageLevel := settings.languageLevel

/-! ## Reading -/

def fieldNames : List String := ["language_level", "max_iterations", "enabled_rules"]

/-- A language version fits in 32 bits. -/
def levelLimit : Nat := UInt32.size

/-- A number of passes fits in 64 bits. -/
def passLimit : Nat := UInt64.size

/-- A list of rule names, or null for no list. -/
def ruleNames? : Json → Option (Option (List String))
  | .null => some none
  | json => json.strings?.map some

def field? {α : Type} (fields : List (String × Json)) (name : String) (default : α)
    (decode : Json → Option α) : Option α :=
  match fields.lookup name with
  | some json => decode json
  | none => some default

def ofFields? (fields : List (String × Json)) : Option Settings :=
  match field? fields "language_level" 8 (Json.natBelow? levelLimit),
      field? fields "max_iterations" 10 (Json.natBelow? passLimit),
      field? fields "enabled_rules" none ruleNames? with
  | some level, some passes, some rules => some ⟨level, passes, rules⟩
  | _, _, _ => none

/-- Settings from a text, which must allow at least one pass. -/
def read (text : String) : Except SetupError Settings :=
  match ((Json.parse? text).bind (Json.record? fieldNames)).bind ofFields? with
  | none => .error .malformed
  | some settings => settings.validate.map (fun _ => settings)

end Settings

end CodeTidy
