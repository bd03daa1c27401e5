import CodeTidy.Settings
import CodeTidy.Rule.Registry

/-!
# The catalog

Texts about rules for their users: what a rule does and why.  The texts are kept
apart from the rules, and a catalog describes only rules that exist.
-/

namespace CodeTidy

structure RuleInfo where
  name : String
  description : String
  reason : String
deriving DecidableEq

namespace RuleInfo

def fieldNames : List String := ["name", "description", "reason"]

/-- A rule's texts from their fields, all of which must be there. -/
def ofFields? (fields : List (String × Json)) : Option RuleInfo :=
  match (fields.lookup "name").bind Json.string?,
      (fields.lookup "description").bind Json.string?,
      (fields.lookup "reason").bind Json.string? with
  | some name, some description, some reason => some ⟨name, description, reason⟩
  | _, _, _ => none

def ofJson? (json : Json) : Option RuleInfo :=
  (json.record? fieldNames).bind ofFields?

end RuleInfo

/-- Texts about rules. -/
structure Catalog where
  rules : List RuleInfo
deriving DecidableEq

namespace Catalog

def builtin : Catalog where
  rules :=
    [ { name := TwoWaySwitch.ruleName
        description := "Replaces a switch with at most two case groups by an if/else statement."
        reason := "A two-way switch reads more naturally as an if statement." },
      { name := NegationDescent.ruleName
        description := "Pushes logical negations down to the leaves of boolean expressions."
        reason := "Conditions without wrapping negations are easier to read." },
      { name := EmptinessTest.ruleName
        description := "Replaces some checks on Collection.size(), Map.size() or String.length() "
          ++ "with checks on isEmpty()."
        reason := "It improves the readability of such simple code to spotlight the complexity "
          ++ "of other code." },
      { name := SetUpdate.ruleName
        description := "Uses the boolean result of Set.add() or Set.remove() instead of calling "
          ++ "Set.contains() first."
        reason := "It avoids a redundant lookup and states the intent in one call." },
      { name := StringConversion.ruleName
        description := "Replaces concatenation with an empty string by String.valueOf()."
        reason := "It states the conversion explicitly instead of relying on concatenation." },
      { name := LocalTable.ruleName
        description := "Replaces a Hashtable that never leaves its method by a HashMap."
        reason := "A HashMap does the same job without the cost of synchronizing every call." },
      { name := DeadBranch.ruleName
        description := "Removes empty if branches, empty if statements and statements guarded by "
          ++ "constant conditions."
        reason := "Code that can never do anything only distracts the reader." } ]

def find? (catalog : Catalog) (name : String) : Option RuleInfo :=
  catalog.rules.find? (fun info => info.name == name)

def infos? : Json → Option (List RuleInfo)
  | .array items => items.mapM RuleInfo.ofJson?
  | _ => none

/-- A catalog from a text; the first name that no rule has is refused. -/
def read (text : String) : Except SetupError Catalog :=
  match (Json.parse? text).bind infos? with
  | none => .error .malformed
  | some infos =>
      match infos.find? (fun info => !Registry.isKnown info.name) with
      | some info => .error (.unknownRule info.name)
      | none => .ok ⟨infos⟩

end Catalog

end CodeTidy
