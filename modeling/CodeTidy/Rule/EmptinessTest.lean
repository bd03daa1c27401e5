import CodeTidy.Rule.Basic

/-!
# Sizes compared with zero or one

A comparison of `size()` or `length()` with 0 or 1 that asks for emptiness calls
`isEmpty()`, and one that always has the same answer becomes a literal:

    list.size() == 0      list.isEmpty()
    0 < list.size()       !list.isEmpty()
    list.size() >= 0      true
-/

namespace CodeTidy

namespace EmptinessTest

def ruleName : String := "IsEmptyRatherThanSize"

/-- First language version in which a string has `isEmpty()`. -/
def stringIsEmptySince : Nat := 6

/-- Types whose `size()` counts elements. -/
def sizedTypes : List String := ["java.util.Collection", "java.util.Map"]

inductive Verdict where
  | always (value : Bool)
  | empty
  | notEmpty
deriving DecidableEq

def verdict? : InfixOp → Int → Option Verdict
  | .greaterEquals, 0 => some (.always true)
  | .less, 0 => some (.always false)
  | .equals, 0 => some .empty
  | .lessEquals, 0 => some .empty
  | .notEquals, 0 => some .notEmpty
  | .greater, 0 => some .notEmpty
  | .greaterEquals, 1 => some .notEmpty
  | .less, 1 => some .empty
  | _, _ => none

/-- Whether a method of a type tells the number of its elements, and the type has
`isEmpty()` as well. -/
def isSizeMethod (options : Options) (type : TypeDesc) (method : String) : Bool :=
  if method = "size" then
    sizedTypes.any type.isSubtypeOf
  else if method = "length" then
    type.name == "java.lang.String" && stringIsEmptySince ≤ options.languageLevel
  else
    false

def sizedReceiver? (store : Store) (options : Options) (call : NodeId) : Option NodeId :=
  match store.kind (store.unparenthesized call) with
  | .call (some receiver) method [] =>
      match store.typeOf receiver with
      | some type => if isSizeMethod options type method then some receiver else none
      | none => none
  | _ => none

def readTest? (store : Store) (options : Options) (op : InfixOp) (call literal : NodeId) :
    Option (NodeId × Verdict) :=
  match sizedReceiver? store options call, store.intLiteral? literal with
  | some receiver, some value => (verdict? op value).map (fun verdict => (receiver, verdict))
  | _, _ => none

/-- The receiver and the verdict of a comparison, with the size on either side. -/
def sizeTest? (store : Store) (options : Options) : Kind → Option (NodeId × Verdict)
  | .chain op [left, right] =>
      if op.isComparison then
        (readTest? store options op left right).orElse
          (fun _ => readTest? store options op.swapped right left)
      else
        none
  | _ => none

open Build

def verdictExpr (receiver : NodeId) : Verdict → Build NodeId
  | .always value => boolLit value
  | .empty => do
      let moved ← take receiver
      call (some moved.node) "isEmpty" []
  | .notEmpty => do
      let moved ← take receiver
      let test ← call (some moved.node) "isEmpty" []
      Build.not test

/-- Whether the verdict may be stated: a literal no longer evaluates the receiver. -/
def isStatable (store : Store) (receiver : NodeId) : Verdict → Bool
  | .always _ => store.isPassive receiver
  | _ => true

def respond (options : Options) (node : NodeId) : Build Response := do
  let kind ← kindOf node
  let store ← get
  match sizeTest? store options kind with
  | some (receiver, verdict) =>
      if isStatable store receiver verdict then
        let stated ← verdictExpr receiver verdict
        let result ← parenthesizeFor stated node
        return .replaceBy node result
      else
        return .decline
  | none => return .decline

/-- Asks whether a collection is empty instead of comparing its size. -/
def rule {Memory : Type} : Rule Memory :=
  .plain ruleName respond

end EmptinessTest

end CodeTidy
