import CodeTidy.Store.Basic

/-!
# Creating, moving, copying and erasing

`Build` is a computation on a store that may end in a fault.  New nodes own the
nodes in their slots.  A live subtree is used again in one of two ways: a copy
consists of new nodes, and a move hands the subtree itself to a new holder.  A
requested move changes nothing in the tree until it is settled.

Erasing follows the links that are owned in both directions: a child is erased
together with its holder only if its parent link names that holder, so subtrees
that moved elsewhere survive.
-/

namespace CodeTidy

abbrev Build := StateT Store (Except Fault)

/-- A subtree that is handed to a new holder. -/
inductive Child where
  /-- A node that was newly created or copied. -/
  | fresh (node : NodeId)
  /-- A live subtree whose move was requested. -/
  | moved (node : NodeId)
deriving DecidableEq

def Child.node : Child → NodeId
  | fresh node => node
  | moved node => node

namespace Store

/-! ## Erasing -/

def eraseSteps : Nat → NodeId → Store → Store
  | 0, _, store => store
  | steps + 1, id, store =>
      (store.children id).foldl
        (fun rest child =>
          if rest.parent child = some id then eraseSteps steps child rest else rest)
        (store.retire id)

/-- Erases a node and all that it owns: a child is owned if its parent link names
the holder of its slot.  Each erased node loses its own link first, so no path of
owned links is longer than the number of nodes. -/
def erase (store : Store) (id : NodeId) : Store :=
  eraseSteps store.size id store

/-- Hands every claimed move to its new holder.  Unclaimed moves stay requested. -/
def settle (store : Store) : Store :=
  let settled := store.moves.foldl
    (fun rest move =>
      match move.claim with
      | some holder => rest.setParent move.node holder
      | none => rest)
    store
  { settled with moves := store.moves.filter (fun move => move.claim.isNone) }

end Store

namespace Build

def lookup (id : NodeId) : Build Node := do
  (← get).get id

def kindOf (id : NodeId) : Build Kind := do
  return (← lookup id).kind

def parentOf (id : NodeId) : Build (Option NodeId) := do
  return (← lookup id).parent

def typeIdOf (id : NodeId) : Build (Option TypeId) := do
  return (← lookup id).type

/-- Number of a type, which is added to the table if it is new. -/
def internType (desc : TypeDesc) : Build TypeId := do
  let store ← get
  let (type, types) := store.types.intern desc
  set { store with types := types }
  return type

/-! ## Creating -/

/-- Makes `holder` the owner of `child`.  A child that has an owner must be on the
move, and is then only claimed. -/
def adopt (holder child : NodeId) : Build Unit := do
  let store ← get
  let found ← store.get child
  if found.erased then
    throw (.erasedChild child)
  match found.parent with
  | none => set ((store.forgetMove child).setParent child holder)
  | some owner =>
      match store.claim? child with
      | some none => set (store.claimMove child holder)
      | some (some other) => throw (.placedTwice child other)
      | none => throw (.ownedChild child owner)

/-- Creates a node.  It gets the next number and then adopts its children in
source order. -/
def create (kind : Kind) (type : Option TypeId) : Build NodeId := do
  let store ← get
  let id := store.size
  set { store with nodes := store.nodes.push { kind := kind, type := type } }
  kind.children.forM (adopt id)
  return id

def setType (id : NodeId) (type : TypeId) : Build Unit := do
  let _ ← lookup id
  modify (fun store => store.setType id type)

/-! ## Copying -/

def copySteps : Nat → NodeId → Build NodeId
  | 0, _ => throw .endlessPath
  | steps + 1, id => do
      let found ← lookup id
      let kind ← found.kind.mapChildrenM (copySteps steps)
      create kind found.type

/-- Copies a subtree into new nodes, children before their parent. -/
def deepCopy (id : NodeId) : Build NodeId := do
  copySteps ((← get).size + 1) id

/-! ## Moving -/

def take (id : NodeId) : Build Child := do
  let store ← get
  if store.isMoving id then
    throw (.alreadyMoving id)
  set (store.requestMove id)
  return .moved id

/-- A built node as a child: moved if a move of it is requested and unclaimed. -/
def asChild (id : NodeId) : Build Child := do
  match (← get).claim? id with
  | some none => return .moved id
  | _ => return .fresh id

def forgetMoves : Build Unit :=
  modify Store.forgetMoves

def erase (id : NodeId) : Build Unit := do
  let _ ← lookup id
  modify (fun store => store.erase id)

/-- Gives up a child.  A moved subtree stays where it is, a fresh one is erased. -/
def release : Child → Build Unit
  | .moved id => modify (fun store => store.forgetMove id)
  | .fresh id => erase id

/-- Breaks `whole` apart and hands out `parts`, which lie below it, as children for
new holders.  The rest of `whole` is never placed. -/
def dissolve (whole : Child) (parts : List NodeId) : Build (List Child) :=
  match whole with
  | .moved id => do
      modify (fun store => store.forgetMove id)
      parts.mapM take
  | .fresh id => do
      parts.forM (fun part => do
        let _ ← lookup part
        modify (fun store => store.clearParent part))
      erase id
      return parts.map .fresh

end Build

end CodeTidy
