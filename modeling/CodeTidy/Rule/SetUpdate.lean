import CodeTidy.Rule.Basic
import CodeTidy.Tree.Matching

/-!
# The answer of a set update

`add` and `remove` of a set tell whether they changed it, so there is no need to
ask `contains` first:

    if (!set.contains(x)) { set.add(x); log(x); }
    if (set.add(x)) { log(x); }

`add` must stand first in the branch where the element was absent, `remove` in the
branch where it was present.
-/

namespace CodeTidy

namespace SetUpdate

def ruleName : String := "UpdateSetRatherThanTestingFirst"

def setType : String := "java.util.Set"

structure SetCall where
  receiver : NodeId
  argument : NodeId
deriving DecidableEq

def setCall? (store : Store) (expr : NodeId) (method : String) : Option SetCall :=
  match store.kind (store.unparenthesized expr) with
  | .call (some receiver) called [argument] =>
      if called = method && (store.typeOf receiver).any (fun type => type.isSubtypeOf setType)
      then some ⟨receiver, argument⟩
      else none
  | _ => none

/-- Reads a condition as a test of membership; the flag tells whether it is negated. -/
def membershipTest? (store : Store) (cond : NodeId) : Option (SetCall × Bool) :=
  let test := store.unparenthesized cond
  match store.kind test with
  | .prefixed .not operand => (setCall? store operand "contains").map (fun call => (call, true))
  | _ => (setCall? store test "contains").map (fun call => (call, false))

structure Candidate where
  method : String
  /-- The branch to look into. -/
  branch : Option NodeId
  /-- The other branch. -/
  opposite : Option NodeId
  /-- Whether the branch is the one taken when the update changes nothing. -/
  negated : Bool
deriving DecidableEq

/-- The branches that may begin with an update: `add` where the element was absent,
`remove` where it was present. -/
def candidates (negated : Bool) (thenBranch : NodeId) (elseBranch : Option NodeId) :
    List Candidate :=
  let (absent, present) :=
    if negated then (some thenBranch, elseBranch) else (elseBranch, some thenBranch)
  [⟨"add", absent, present, !negated⟩, ⟨"remove", present, absent, negated⟩]

structure Update where
  /-- The statement that is the update. -/
  stmt : NodeId
  /-- The call in that statement. -/
  call : NodeId
  /-- Whether the update is all that the two branches do. -/
  isAll : Bool
  negated : Bool
deriving DecidableEq

def update? (store : Store) (test : SetCall) (candidate : Candidate) : Option Update :=
  match store.statementsOf candidate.branch with
  | first :: rest =>
      match store.kind first with
      | .exprStmt call =>
          match setCall? store call candidate.method with
          | some found =>
              if store.alike test.receiver found.receiver &&
                  store.alike test.argument found.argument then
                some
                  ⟨first, call, rest.isEmpty && store.isEmptyBranch candidate.opposite,
                    candidate.negated⟩
              else
                none
          | none => none
      | _ => none
  | [] => none

/-- The update that makes the test of a conditional needless. -/
def plan? (store : Store) : Kind → Option (NodeId × Update)
  | .ifStmt cond thenBranch elseBranch =>
      match membershipTest? store cond with
      | some (test, negated) =>
          if store.isPassive test.receiver && store.isPassive test.argument then
            ((candidates negated thenBranch elseBranch).findSome? (update? store test)).map
              (fun update => (cond, update))
          else
            none
      | none => none
  | _ => none

open Build

/-- Edits that put the update in the place of the whole conditional, or of its
condition. -/
def edits (node cond : NodeId) (update : Update) : Build (List Edit) := do
  if update.isAll then
    let moved ← take update.stmt
    return [⟨node, .replace moved⟩]
  else
    let moved ← take update.call
    let newCond ← if update.negated then Build.not moved.node else pure moved.node
    let child ← asChild newCond
    let drop ← dropStatement update.stmt
    return [⟨cond, .replace child⟩, drop]

def respond (_ : Options) (node : NodeId) : Build Response := do
  let kind ← kindOf node
  match plan? (← get) kind with
  | some (cond, update) => return .edit (← edits node cond update)
  | none => return .decline

/-- Uses the answer of a set update instead of testing membership first. -/
def rule {Memory : Type} : Rule Memory :=
  .plain ruleName respond

end SetUpdate

end CodeTidy
