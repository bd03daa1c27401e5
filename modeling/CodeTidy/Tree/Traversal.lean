import CodeTidy.Store.Basic

/-!
# Listings of a tree

A listing names the nodes at and below a node, every node before the nodes below
it and children in source order.  Which children follow a node is a parameter,
so a listing can stay out of some subtrees.  Searches are ordinary list
operations on listings.
-/

namespace CodeTidy

namespace Store

/-- The nodes met from `root` on when `next` gives the nodes that follow a node. -/
def listing (store : Store) (next : NodeId → List NodeId) (root : NodeId) : List NodeId :=
  store.fold []
    (fun here _ below => here :: (next here).flatMap below)
    root

def preorder (store : Store) (root : NodeId) : List NodeId :=
  store.listing store.children root

def childrenUnless (store : Store) (closed : NodeId → Bool) (id : NodeId) : List NodeId :=
  if closed id then [] else store.children id

def childrenInScope (store : Store) (id : NodeId) : List NodeId :=
  (store.children id).filter (fun child => !(store.kind child).isBlock)

/-- The nodes of a statement that belong to its own statement list: nested blocks are
left out, the statement itself is not. -/
def statementScope (store : Store) (stmt : NodeId) : List NodeId :=
  store.listing store.childrenInScope stmt

def anyBelow (store : Store) (root : NodeId) (holds : Kind → Bool) : Bool :=
  (store.preorder root).any (fun id => holds (store.kind id))

/-! ## Walks that stop -/

structure Walk where
  visited : List NodeId
  stopped : Option NodeId
deriving DecidableEq

def cutAt (stop : NodeId → Bool) : List NodeId → Walk
  | [] => ⟨[], none⟩
  | id :: rest =>
      if stop id then
        ⟨[id], some id⟩
      else
        let later := cutAt stop rest
        ⟨id :: later.visited, later.stopped⟩

/-- Visits the nodes at and below `root` until one satisfies `stop`, staying out of
the subtrees of closed nodes. -/
def walk (store : Store) (closed stop : NodeId → Bool) (root : NodeId) : Walk :=
  cutAt stop (store.listing (store.childrenUnless closed) root)

def walkInScope (store : Store) (closed stop : NodeId → Bool) (root : NodeId) : Walk :=
  cutAt stop
    (store.listing
      (fun id => if closed id then [] else store.childrenInScope id)
      root)

end Store

end CodeTidy
