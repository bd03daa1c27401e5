import CodeTidy.Rule.Basic

/-!
# Tables that stay local

A `Hashtable` that never leaves its method need not be synchronized, so it becomes
a `HashMap`.  A table that is created as the receiver of a call is replaced in
place.  A table kept in a local is replaced together with the local, if every later
use of the local only calls methods on it or names it to initialize another
`Hashtable` local, of which the same holds.
-/

namespace CodeTidy

namespace LocalTable

def ruleName : String := "HashMapRatherThanHashtable"

def tableType : String := "java.util.Hashtable"

def tableOnlyMethods : List String := ["contains", "elements", "keys", "rehash"]

def mapType : TypeDesc where
  name := "java.util.HashMap"
  sort := .reference
  supertypes :=
    ["java.util.AbstractMap", "java.util.Map", "java.lang.Cloneable", "java.io.Serializable"]

/-! ## Uses of a table -/

def isTable (store : Store) (id : NodeId) : Bool :=
  (store.typeOf id).any (fun type => type.name == tableType)

def isTableCreation (store : Store) (expr : NodeId) : Bool :=
  match store.kind expr with
  | .creation _ => isTable store expr
  | _ => false

def isSafeReceiver (store : Store) (id : NodeId) : Bool :=
  match (store.parent id).map store.kind with
  | some (.call receiver method _) =>
      receiver == some id && !tableOnlyMethods.contains method
  | _ => false

inductive Use where
  /-- The local is the receiver of a call. -/
  | receiver (name : NodeId)
  /-- The local initializes another local of the table's type. -/
  | synonym (decl : NodeId) (text : String) (binding : BindingId) (source : NodeId)
deriving DecidableEq

/-- Reads a name as the initializer of another local of the table's type. -/
def synonym? (store : Store) (id : NodeId) : Option Use :=
  match store.parent id with
  | some owner =>
      match store.kind owner with
      | .varDecl text (some binding) init =>
          if init = some id && isTable store owner then some (.synonym owner text binding id)
          else none
      | _ => none
  | none => none

def use? (store : Store) (id : NodeId) : Option Use :=
  if isSafeReceiver store id then some (.receiver id) else synonym? store id

/-- The locals that hold the table, and the uses of them found so far. -/
structure Tracking where
  locals : List BindingId
  uses : List Use := []
deriving DecidableEq

/-- Adds a use; the local that a synonym declares holds the table too. -/
def Tracking.add (tracking : Tracking) : Use → Tracking
  | .receiver id => { tracking with uses := tracking.uses ++ [.receiver id] }
  | .synonym decl text binding source =>
      ⟨binding :: tracking.locals, tracking.uses ++ [.synonym decl text binding source]⟩

/-- Looks at one node; there is no answer if the table escapes at it. -/
def Tracking.visit (store : Store) (tracking : Tracking) (id : NodeId) : Option Tracking :=
  if store.isNameOf tracking.locals id then
    (use? store id).map tracking.add
  else
    some tracking

def laterStatements? (store : Store) (decl : NodeId) : Option (List NodeId) :=
  match (store.parent decl).map (fun owner => (store.kind owner).statementList?) with
  | some (some list) =>
      if decl ∈ list then some ((list.dropWhile (fun item => item != decl)).drop 1) else none
  | _ => none

/-- Every use of a local in the statements after its declaration, in source order.
There is no answer if one of them lets the table escape. -/
def localUses? (store : Store) (decl : NodeId) (binding : BindingId) : Option (List Use) :=
  match laterStatements? store decl with
  | some stmts =>
      ((stmts.flatMap store.preorder).foldlM (Tracking.visit store) ⟨[binding], []⟩).map
        Tracking.uses
  | none => none

/-! ## Replacing the table -/

open Build

def mapCreation (table : NodeId) : Build NodeId := do
  let args ← ((← get).children table).mapM take
  let map ← internType mapType
  creation map (args.map Child.node)

def retypedCopy (id : NodeId) (type : TypeId) : Build NodeId := do
  let copy ← deepCopy id
  setType copy type
  return copy

def retypeUse (map : TypeId) : Use → Build Edit
  | .receiver id => do
      let copy ← retypedCopy id map
      return ⟨id, .replace (.fresh copy)⟩
  | .synonym decl text binding source => do
      let copy ← retypedCopy source map
      let replacement ← varDecl text (some binding) (some map) (some copy)
      return ⟨decl, .replace (.fresh replacement)⟩

def retypeLocal (decl : NodeId) (text : String) (binding : BindingId) (init : NodeId)
    (uses : List Use) : Build (List Edit) := do
  let map ← internType mapType
  let made ← mapCreation init
  let replacement ← varDecl text (some binding) (some map) (some made)
  let others ← uses.mapM (retypeUse map)
  return ⟨decl, .replace (.fresh replacement)⟩ :: others

def respond (_ : Options) (node : NodeId) : Build Response := do
  let kind ← kindOf node
  let store ← get
  match kind with
  | .varDecl text (some binding) (some init) =>
      if isTable store node && isTableCreation store init then
        match localUses? store node binding with
        | some uses => return .edit (← retypeLocal node text binding init uses)
        | none => return .decline
      else
        return .decline
  | .creation _ =>
      if isTable store node && isSafeReceiver store node then
        let made ← mapCreation node
        return .replaceBy node made
      else
        return .decline
  | _ => return .decline

/-- Replaces a table that never escapes by a map. -/
def rule {Memory : Type} : Rule Memory :=
  .plain ruleName respond

end LocalTable

end CodeTidy
