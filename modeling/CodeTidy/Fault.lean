import CodeTidy.Syntax.Kind

/-!
# Faults

A fault is a broken promise of a caller: a node number that was never handed
out, a subtree placed twice, a removal from a slot that cannot be empty.  Each
cause is a constructor, and the wording of all of them is `Fault.message`.
-/

namespace CodeTidy

/-- Causes for which an operation on a store stops. -/
inductive Fault where
  /-- The store has `size` nodes and none with number `index`. -/
  | outOfRange (size index : Nat)
  /-- An erased node was given as a child. -/
  | erasedChild (child : NodeId)
  /-- A moved subtree was given a second new holder. -/
  | placedTwice (child holder : NodeId)
  /-- A node that has an owner was given as a child without being moved. -/
  | ownedChild (child owner : NodeId)
  /-- A second move of a node was requested. -/
  | alreadyMoving (node : NodeId)
  /-- The node to replace is in no slot. -/
  | replaceRoot (target : NodeId)
  /-- The node to replace is not in a slot of its parent. -/
  | replaceStray (target parent : NodeId)
  /-- The node to remove is in no slot. -/
  | removeRoot (target : NodeId)
  /-- The node to remove is in a slot that cannot be empty. -/
  | removeRequired (target parent : NodeId)
  /-- The node to remove is not in a slot of its parent. -/
  | removeStray (target parent : NodeId)
  /-- The anchor of an insertion is in no slot. -/
  | insertRoot (anchor : NodeId)
  /-- The anchor of an insertion is not in a statement list. -/
  | insertOutsideList (anchor parent : NodeId)
  /-- A chain was built from fewer than two operands. -/
  | fewOperands (op : InfixOp)
  /-- A chain was built from nothing. -/
  | noOperands
  /-- Edits were committed and a requested move has no place. -/
  | unplacedMove
  /-- A path through the slots is longer than any path of a tree can be. -/
  | endlessPath
deriving DecidableEq

namespace Fault

def nodeName (node : NodeId) : String :=
  "n" ++ Nat.repr node

def message : Fault → String
  | outOfRange size index =>
      "index out of bounds: the len is " ++ Nat.repr size ++ " but the index is "
        ++ Nat.repr index
  | erasedChild child => "create: child " ++ nodeName child ++ " has been erased"
  | placedTwice child holder =>
      "create: moved node " ++ nodeName child ++ " was already placed under "
        ++ nodeName holder
  | ownedChild child owner =>
      "create: node " ++ nodeName child ++ " is owned by " ++ nodeName owner
        ++ "; copy it or take it before reuse"
  | alreadyMoving node => "take: node " ++ nodeName node ++ " is already being moved"
  | replaceRoot target => "replace: " ++ nodeName target ++ " has no parent"
  | replaceStray target parent =>
      "replace: " ++ nodeName target ++ " not found in parent " ++ nodeName parent
  | removeRoot target => "remove: " ++ nodeName target ++ " has no parent"
  | removeRequired target parent =>
      "remove: " ++ nodeName target ++ " occupies a required slot of " ++ nodeName parent
  | removeStray target parent =>
      "remove: " ++ nodeName target ++ " not found in parent " ++ nodeName parent
  | insertRoot anchor => "insert: " ++ nodeName anchor ++ " has no parent"
  | insertOutsideList anchor parent =>
      "insert: parent " ++ nodeName parent ++ " of " ++ nodeName anchor
        ++ " is not a statement list"
  | fewOperands op => "infix: `" ++ op.symbol ++ "` needs at least two operands"
  | noOperands => "infix_chain: no operands"
  | unplacedMove => "apply_edits: a moved subtree was never placed"
  | endlessPath => "the slots of the tree form an endless path"

end Fault

end CodeTidy
