import CodeTidy.Rule.TwoWaySwitch
import CodeTidy.Rule.NegationDescent
import CodeTidy.Rule.EmptinessTest
import CodeTidy.Rule.SetUpdate
import CodeTidy.Rule.StringConversion
import CodeTidy.Rule.LocalTable
import CodeTidy.Rule.DeadBranch

/-!
# All rules

The rules in the order in which they are offered each node, and how to find one by
its name.
-/

namespace CodeTidy

namespace Registry

variable {Memory : Type}

def rules : List (Rule Memory) :=
  [TwoWaySwitch.rule, NegationDescent.rule, EmptinessTest.rule, SetUpdate.rule,
    StringConversion.rule, LocalTable.rule, DeadBranch.rule]

def names : List String :=
  (rules : List (Rule Unit)).map Rule.name

def find? (name : String) : Option (Rule Memory) :=
  rules.find? (fun rule => rule.name == name)

def isKnown (name : String) : Bool :=
  names.contains name

end Registry

end CodeTidy
