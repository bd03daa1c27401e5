import CodeTidy.Rule.Basic

/-!
# Negations at the leaves

A negation moves into its operand: a double negation is dropped, a literal is
flipped, a comparison is inverted, and a chain of boolean connectives becomes the
dual chain of negated operands:

    !(a && b < c)      (!a || b >= c)

Below a negation `&` and `|` are boolean and follow the same laws; `^` has no dual
and stays.
-/

namespace CodeTidy

namespace NegationDescent

def ruleName : String := "PushNegationDown"

def isCovered (store : Store) (operand : NodeId) : Bool :=
  let inner := store.unparenthesized operand
  match store.kind inner with
  | .prefixed .not _ => true
  | .chain op _ => op.dual?.isSome || store.isInvertible inner
  | _ => (store.boolLiteral? inner).isSome

open Build

def withoutParens (expr : Child) : Build Child := do
  let inner := (← get).unparenthesized expr.node
  if inner = expr.node then
    return expr
  else
    match ← dissolve expr [inner] with
    | part :: _ => return part
    | [] => return expr

def dualChain? : Kind → Option (InfixOp × List NodeId)
  | .chain op operands => op.dual?.map (fun dual => (dual, operands))
  | _ => none

def pushSteps : Nat → Child → Build NodeId
  | 0, _ => throw .endlessPath
  | steps + 1, expr => do
      let bare ← withoutParens expr
      let store ← get
      match dualChain? (store.kind bare.node) with
      | some (dual, operands) =>
          let parts ← dissolve bare operands
          let negated ← parts.mapM (pushSteps steps)
          let joined ← join dual negated
          paren joined
      | none => negate bare (store.isInvertible bare.node)

/-- The negation of an expression, with every `!` as far down as it goes. -/
def pushDown (expr : Child) : Build NodeId := do
  pushSteps ((← get).size + 1) expr

def respond (_ : Options) (node : NodeId) : Build Response := do
  match ← kindOf node with
  | .prefixed .not operand =>
      if isCovered (← get) operand then
        let moved ← take operand
        let pushed ← pushDown moved
        let result ← parenthesizeFor pushed node
        let child ← asChild result
        return .edit [⟨node, .replace child⟩]
      else
        return .decline
  | _ => return .decline

/-- Pushes negations down to the leaves of boolean expressions. -/
def rule {Memory : Type} : Rule Memory :=
  .plain ruleName respond

end NegationDescent

end CodeTidy
