import CodeTidy.Syntax.TypeDesc
import CodeTidy.Fault

/-!
# Stores

A store holds the nodes of one compilation unit, numbered in the order in which
they were created; numbers are never reused.  Every node records its parent, and
every slot of a kind names a child, so the two can be compared.  A store also
keeps the moves that were requested and not yet carried out.

Looking up a number that was never handed out gives a parentless leaf.  The
operations that must refuse such numbers use `get`, which fails.

`Store.fold` computes a value at a node from the values at the nodes below it.
It follows slots for as many steps as the store has nodes, which is enough for
every path of a tree.
-/

namespace CodeTidy

structure Node where
  kind : Kind
  /-- Type of an expression, or declared type of a variable declaration. -/
  type : Option TypeId
  /-- The node in whose slot this one stands. -/
  parent : Option NodeId := none
  /-- Erased nodes keep their number and are never placed again. -/
  erased : Bool := false
deriving DecidableEq

namespace Node

/-- The node found under numbers that were never handed out. -/
def leaf : Node := ⟨.literal .null, none, none, false⟩

end Node

/-- A requested move of a subtree.  It is claimed once a new node has the subtree
in one of its slots; until then it may still stand in for an edited node. -/
structure Move where
  node : NodeId
  claim : Option NodeId := none
deriving DecidableEq

structure Store where
  nodes : Array Node := #[]
  types : TypeTable := {}
  /-- Requested moves that were not carried out yet, each node at most once. -/
  moves : List Move := []
deriving DecidableEq

namespace Store

/-! ## Looking up nodes -/

/-- Number of nodes ever created. -/
def size (store : Store) : Nat :=
  store.nodes.size

def node (store : Store) (id : NodeId) : Node :=
  store.nodes.getD id Node.leaf

def get (store : Store) (id : NodeId) : Except Fault Node :=
  match store.nodes[id]? with
  | some found => .ok found
  | none => .error (.outOfRange store.size id)

def kind (store : Store) (id : NodeId) : Kind :=
  (store.node id).kind

def parent (store : Store) (id : NodeId) : Option NodeId :=
  (store.node id).parent

def isErased (store : Store) (id : NodeId) : Bool :=
  (store.node id).erased

def children (store : Store) (id : NodeId) : List NodeId :=
  (store.kind id).children

def typeOf (store : Store) (id : NodeId) : Option TypeDesc :=
  (store.node id).type.bind store.types.get?

theorem node_of_size_le {store : Store} {id : NodeId} (h : store.size ≤ id) :
    store.node id = Node.leaf := by
  have hnone : store.nodes[id]? = none := Array.getElem?_eq_none h
  simp [node, Array.getD_eq_getD_getElem?, hnone]

/-! ## Changing single nodes -/

def modify (store : Store) (id : NodeId) (f : Node → Node) : Store :=
  { store with nodes := store.nodes.modify id f }

def setParent (store : Store) (id : NodeId) (owner : NodeId) : Store :=
  store.modify id (fun old => { old with parent := some owner })

def clearParent (store : Store) (id : NodeId) : Store :=
  store.modify id (fun old => { old with parent := none })

def setKind (store : Store) (id : NodeId) (kind : Kind) : Store :=
  store.modify id (fun old => { old with kind := kind })

def setType (store : Store) (id : NodeId) (type : TypeId) : Store :=
  store.modify id (fun old => { old with type := some type })

def retire (store : Store) (id : NodeId) : Store :=
  store.modify id (fun old => { old with erased := true, parent := none })

theorem size_modify (store : Store) (id : NodeId) (f : Node → Node) :
    (store.modify id f).size = store.size := by
  simp [modify, size]

theorem node_modify_of_ne (store : Store) {id other : NodeId} (f : Node → Node)
    (h : id ≠ other) : (store.modify id f).node other = store.node other := by
  simp [modify, node, Array.getD_eq_getD_getElem?, Array.getElem?_modify, h]

theorem node_modify_self (store : Store) {id : NodeId} (f : Node → Node)
    (h : id < store.size) : (store.modify id f).node id = f (store.node id) := by
  have h' : id < store.nodes.size := h
  simp [modify, node, Array.getD_eq_getD_getElem?, Array.getElem_modify, h']

/-! ## Requested moves -/

/-- The claim on a requested move of the node, if a move was requested. -/
def claim? (store : Store) (id : NodeId) : Option (Option NodeId) :=
  (store.moves.find? (fun move => move.node == id)).map Move.claim

def isMoving (store : Store) (id : NodeId) : Bool :=
  store.moves.any (fun move => move.node == id)

/-- A node is moving exactly when there is a claim, filled or not, on its move. -/
theorem claim?_isSome (store : Store) (id : NodeId) :
    (store.claim? id).isSome = store.isMoving id := by
  rw [claim?, isMoving, Option.isSome_map]
  induction store.moves with
  | nil => rfl
  | cons move rest ih =>
      by_cases h : move.node = id
      · simp [h]
      · have hne : (move.node == id) = false := beq_eq_false_iff_ne.mpr h
        simpa [hne] using ih

def forgetMove (store : Store) (id : NodeId) : Store :=
  { store with moves := store.moves.filter (fun move => move.node != id) }

def claimMove (store : Store) (id holder : NodeId) : Store :=
  { store with
    moves := store.moves.map (fun move =>
      if move.node == id then ⟨id, some holder⟩ else move) }

def requestMove (store : Store) (id : NodeId) : Store :=
  { store with moves := ⟨id, none⟩ :: store.moves }

theorem claim?_requestMove_self (store : Store) (id : NodeId) :
    (store.requestMove id).claim? id = some none := by
  simp [requestMove, claim?]

def forgetMoves (store : Store) : Store :=
  { store with moves := [] }

/-! ## Recursion along the slots -/

def foldSteps {α : Type} (store : Store) (bottom : α)
    (step : NodeId → Node → (NodeId → α) → α) : Nat → NodeId → α
  | 0, _ => bottom
  | steps + 1, id => step id (store.node id) (foldSteps store bottom step steps)

@[simp] theorem foldSteps_succ {α : Type} (store : Store) (bottom : α)
    (step : NodeId → Node → (NodeId → α) → α) (steps : Nat) (id : NodeId) :
    store.foldSteps bottom step (steps + 1) id =
      step id (store.node id) (store.foldSteps bottom step steps) := rfl

/-- The value at a node, where `step` computes it from the node and from the
values at the nodes below it.  The value `bottom` stands at the end of paths that
are longer than any path of a tree. -/
def fold {α : Type} (store : Store) (bottom : α)
    (step : NodeId → Node → (NodeId → α) → α) (id : NodeId) : α :=
  store.foldSteps bottom step (store.size + 1) id

/-! ## Small readings of the tree -/

def unparenthesized (store : Store) (id : NodeId) : NodeId :=
  store.fold id
    (fun here found below =>
      match found.kind with
      | .paren inner => below inner
      | _ => here)
    id

/-- Statements of a branch: those of a block, or the single statement. -/
def statementsOf (store : Store) : Option NodeId → List NodeId
  | none => []
  | some stmt =>
      match store.kind stmt with
      | .block stmts => stmts
      | _ => [stmt]

def canRemove (store : Store) (id : NodeId) : Bool :=
  match store.parent id with
  | some owner => ((store.kind owner).dropChild? id).isSome
  | none => false

end Store

end CodeTidy
