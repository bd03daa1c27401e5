import CodeTidy.Rule.Basic

/-!
# Branches that do nothing

Conditionals and loops with a constant condition are replaced by what they do, and
empty branches go away:

    if (b) { run(); } else {}      if (b) { run(); }
    if (b) {} else { run(); }      if (!b) { run(); }
    if (set.add(x)) {}             set.add(x);
    while (false) { run(); }       (nothing)
-/

namespace CodeTidy

namespace DeadBranch

def ruleName : String := "DeadCodeElimination"

open Build

/-- A conditional whose branches are both empty keeps only the effect of its
condition: nothing if the condition is passive, a statement if it is a single call
or assignment.  Other conditions stay. -/
def dropEmptyIf (node cond : NodeId) : Build Response := do
  let store ← get
  if store.isPassive cond then
    return .edit [← dropStatement node]
  else
    let expr := store.unparenthesized cond
    match store.kind expr with
    | .call _ _ _ | .assign _ _ _ =>
        let moved ← take expr
        let stmt ← exprStmt moved.node
        return .replaceBy node stmt
    | _ => return .decline

def takeBranch (node : NodeId) : Option NodeId → Build Response
  | some branch => do
      let moved ← take branch
      return .edit [⟨node, .replace moved⟩]
  | none => do
      return .edit [← dropStatement node]

/-- A conditional that only has an alternative is the negated conditional. -/
def invertIf (node cond elseBranch : NodeId) : Build Response := do
  let invert := (← get).isInvertible cond
  let movedCond ← take cond
  let negated ← negate movedCond invert
  let moved ← take elseBranch
  let body ←
    if ((← get).kind elseBranch).isBlock then
      pure moved.node
    else
      block [moved.node]
  let inverted ← ifStmt negated body none
  return .replaceBy node inverted

def respondIf (node cond thenBranch : NodeId) (elseBranch : Option NodeId) :
    Build Response := do
  let store ← get
  match store.boolLiteral? cond with
  | some value => takeBranch node (if value then some thenBranch else elseBranch)
  | none =>
      let thenEmpty := store.isEmptyBranch (some thenBranch)
      let elseEmpty := store.isEmptyBranch elseBranch
      if thenEmpty && elseEmpty then
        dropEmptyIf node cond
      else
        match elseBranch with
        | some branch =>
            if elseEmpty then
              return .edit [⟨branch, .remove⟩]
            else if thenEmpty then
              invertIf node cond branch
            else
              return .decline
        | none => return .decline

def respond (_ : Options) (node : NodeId) : Build Response := do
  match ← kindOf node with
  | .ifStmt cond thenBranch elseBranch => respondIf node cond thenBranch elseBranch
  | .whileStmt cond _ =>
      if (← get).boolLiteral? cond = some false then
        return .edit [← dropStatement node]
      else
        return .decline
  | _ => return .decline

/-- Removes branches that do nothing and statements that are never reached. -/
def rule {Memory : Type} : Rule Memory :=
  .plain ruleName respond

end DeadBranch

end CodeTidy
