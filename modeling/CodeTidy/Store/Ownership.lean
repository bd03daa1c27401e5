import CodeTidy.Store.Basic

/-!
# Ownership check

In a sound tree every node below the root stands in exactly one slot, its parent
link names the holder of that slot, and it is not erased; no move is left
waiting.  `Store.violations` searches the nodes below a root and lists every
place where this fails.  It also ends on slots that share nodes or run in a
circle, because no node is searched twice.
-/

namespace CodeTidy

inductive Violation where
  /-- An erased node is still in a slot. -/
  | erased (node holder : NodeId)
  /-- The parent link of a node does not name the holder of its slot. -/
  | strayParent (node holder : NodeId) (recorded : Option NodeId)
  /-- A node is in more than one slot, or below itself. -/
  | shared (node : NodeId)
  /-- A requested move was neither carried out nor forgotten. -/
  | waitingMoves
deriving DecidableEq

namespace Violation

def message : Violation → String
  | erased node holder =>
      "erased node " ++ Fault.nodeName node ++ " is still a child of "
        ++ Fault.nodeName holder
  | strayParent node holder (some recorded) =>
      "node " ++ Fault.nodeName node ++ " is held by " ++ Fault.nodeName holder
        ++ " but records parent " ++ Fault.nodeName recorded
  | strayParent node holder none =>
      "node " ++ Fault.nodeName node ++ " is held by " ++ Fault.nodeName holder
        ++ " but records no parent"
  | shared node => "node " ++ Fault.nodeName node ++ " is reachable more than once"
  | waitingMoves => "moves are still pending"

def summary : List Violation → String
  | [] => "validation passed"
  | found =>
      Nat.repr found.length ++ " ownership error(s) found:\n"
        ++ String.join (found.map (fun violation => "  - " ++ violation.message ++ "\n"))

end Violation

namespace Store

structure Inspection where
  /-- Violations in the order of the slots. -/
  found : List Violation
  /-- Nodes that were met for the first time, in the order of the slots. -/
  met : List NodeId
deriving DecidableEq

/-- Violations of one child that was met for the first time. -/
def childViolations (store : Store) (holder child : NodeId) : List Violation :=
  (if store.isErased child then [.erased child holder] else []) ++
    (if store.parent child = some holder then []
      else [.strayParent child holder (store.parent child)])

def inspectSlots (store : Store) (holder : NodeId) (seen : List NodeId) :
    List NodeId → Inspection
  | [] => ⟨[], []⟩
  | child :: rest =>
      if child ∈ seen then
        let later := store.inspectSlots holder seen rest
        ⟨.shared child :: later.found, later.met⟩
      else
        let later := store.inspectSlots holder (child :: seen) rest
        ⟨store.childViolations holder child ++ later.found, child :: later.met⟩

/-- Searches the waiting nodes, the latest first.  Every step handles a node that no
other step handles. -/
def searchSteps (store : Store) : Nat → List NodeId → List NodeId → List Violation
  | 0, _, _ => []
  | _ + 1, _, [] => []
  | steps + 1, seen, holder :: waiting =>
      let slots := store.inspectSlots holder seen (store.children holder)
      slots.found ++
        store.searchSteps steps (slots.met ++ seen) (slots.met.reverse ++ waiting)

def violations (store : Store) (root : NodeId) : List Violation :=
  (if store.moves.isEmpty then [] else [.waitingMoves]) ++
    store.searchSteps (store.size + 1) [root] [root]

end Store

end CodeTidy
