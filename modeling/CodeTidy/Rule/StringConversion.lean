import CodeTidy.Rule.Basic

/-!
# Conversion to a string

Joining a value to the empty string converts it to a string, and
`String.valueOf` says so:

    "" + x      String.valueOf(x)

The type of the value must be known.  Strings need no conversion, and
`String.valueOf` reads an array of characters in its own way.
-/

namespace CodeTidy

namespace StringConversion

def ruleName : String := "StringValueOfRatherThanConcat"

def excludedTypes : List String := ["java.lang.String", "char[]"]

def isEmptyString (store : Store) (expr : NodeId) : Bool :=
  match store.kind expr with
  | .literal (.str value) => value == ""
  | _ => false

def converted? (store : Store) : Kind → Option NodeId
  | .chain .plus [left, right] =>
      if isEmptyString store left then some right
      else if isEmptyString store right then some left
      else none
  | _ => none

/-- Whether `String.valueOf` converts a value as joining does. -/
def isConvertible (store : Store) (value : NodeId) : Bool :=
  (store.typeOf value).any (fun type => !type.isOneOf excludedTypes)

open Build

def respond (_ : Options) (node : NodeId) : Build Response := do
  let kind ← kindOf node
  let store ← get
  match converted? store kind with
  | some value =>
      if isConvertible store value then
        let moved ← take value
        let target ← name "String" none none
        let conversion ← call (some target) "valueOf" [moved.node]
        return .replaceBy node conversion
      else
        return .decline
  | none => return .decline

/-- Converts to a string by `String.valueOf` instead of joining to an empty string. -/
def rule {Memory : Type} : Rule Memory :=
  .plain ruleName respond

end StringConversion

end CodeTidy
