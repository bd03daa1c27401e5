import CodeTidy.Store.Build

/-!
# Edits of the live tree

An edit replaces a node, removes it, or inserts a statement beside it.  Edits
are recorded first and committed together: claimed moves are settled before the
first edit, so erasing what an edit replaces never takes a subtree along that
was moved out of it into a new node.
-/

namespace CodeTidy

inductive Change where
  | replace (replacement : Child)
  | remove
  | insert (side : Kind.Side) (added : Child)
deriving DecidableEq

structure Edit where
  target : NodeId
  change : Change
deriving DecidableEq

namespace Build

/-! ## Single changes -/

/-- Makes `holder` the owner of a node that was just put into one of its slots.  A
requested move of the node is carried out. -/
def place (holder child : NodeId) : Build Unit := do
  let store ← get
  if store.isMoving child then
    let _ ← lookup child
    set ((store.forgetMove child).setParent child holder)
  else
    adopt holder child

def eraseIfOwned (id formerParent : NodeId) : Build Unit := do
  if (← parentOf id) = some formerParent then
    erase id

/-- Puts `replacement` into the slot of `target` and erases what is left of the old
subtree. -/
def replace (target replacement : NodeId) : Build Unit := do
  match ← parentOf target with
  | none => throw (.replaceRoot target)
  | some owner =>
      match (← kindOf owner).replaceChild? target replacement with
      | none => throw (.replaceStray target owner)
      | some kind =>
          modify (fun store => store.setKind owner kind)
          place owner replacement
          eraseIfOwned target owner

def remove (target : NodeId) : Build Unit := do
  match ← parentOf target with
  | none => throw (.removeRoot target)
  | some owner =>
      match (← kindOf owner).removeChild target with
      | .absent => throw (.removeStray target owner)
      | .required => throw (.removeRequired target owner)
      | .done kind =>
          modify (fun store => store.setKind owner kind)
          eraseIfOwned target owner

def insertBeside (anchor added : NodeId) (side : Kind.Side) : Build Unit := do
  match ← parentOf anchor with
  | none => throw (.insertRoot anchor)
  | some owner =>
      match (← kindOf owner).insertChild? anchor added side with
      | none => throw (.insertOutsideList anchor owner)
      | some kind =>
          modify (fun store => store.setKind owner kind)
          place owner added

/-! ## Committing -/

def applyEdit (edit : Edit) : Build Unit :=
  match edit.change with
  | .replace replacement => replace edit.target replacement.node
  | .remove => remove edit.target
  | .insert side added => insertBeside edit.target added.node side

/-- Settles the claimed moves and carries out the edits in recorded order.  Every
requested move must have found a place by then. -/
def commit (edits : List Edit) : Build Unit := do
  modify Store.settle
  edits.forM applyEdit
  if !(← get).moves.isEmpty then
    throw .unplacedMove
  forgetMoves

end Build

namespace Edit

def originName : Child → String
  | .fresh _ => "Fresh"
  | .moved _ => "Moved"

def describe (edit : Edit) : String :=
  let target := Fault.nodeName edit.target
  match edit.change with
  | .replace replacement =>
      "replace " ++ target ++ " with " ++ Fault.nodeName replacement.node ++ " ("
        ++ originName replacement ++ ")"
  | .remove => "remove " ++ target
  | .insert side added =>
      let place := match side with
        | .before => "before "
        | .after => "after "
      "insert " ++ Fault.nodeName added.node ++ " (" ++ originName added ++ ") "
        ++ place ++ target

end Edit

end CodeTidy
