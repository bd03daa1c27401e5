import CodeTidy.Store.Construct

/-!
# Building trees by hand

A workbench stands in for name resolution: it gives every variable name one
binding and remembers the types of variables, so that trees can be written close to
the source they stand for.
-/

namespace CodeTidy

structure Variables where
  /-- Known names; the binding of a name is its position. -/
  names : List String := []
  /-- Types of variables, the latest first. -/
  types : List (String × TypeId) := []
deriving DecidableEq

abbrev Workbench := StateT Variables Build

namespace Workbench

/-- The binding of a name; equal names have equal bindings. -/
def binding (name : String) : Workbench BindingId := do
  let known ← get
  match known.names.findIdx? (fun other => other == name) with
  | some position => return position
  | none =>
      set { known with names := known.names ++ [name] }
      return known.names.length

def typeNamed (name : String) : Workbench TypeId :=
  Build.internType (.ofName name)

def assume (name : String) (type : TypeId) : Workbench Unit :=
  modify (fun known => { known with types := (name, type) :: known.types })

def declare (name : String) (desc : TypeDesc) : Workbench TypeId := do
  let type ← (Build.internType desc : Build TypeId)
  assume name type
  return type

def var (name : String) : Workbench NodeId := do
  let bound ← binding name
  let type := (← get).types.lookup name
  Build.name name (some bound) type

def typedVar (name : String) (desc : TypeDesc) : Workbench NodeId := do
  let _ ← declare name desc
  var name

/-- A name that could not be resolved. -/
def unresolved (name : String) : Workbench NodeId :=
  Build.name name none none

def decl (name typeText : String) (init : Option NodeId) : Workbench NodeId := do
  let type ← typeNamed typeText
  assume name type
  let bound ← binding name
  Build.varDecl name (some bound) (some type) init

def method (receiver : NodeId) (name : String) (args : List NodeId) : Workbench NodeId :=
  Build.call (some receiver) name args

def callStmt (name : String) (args : List NodeId) : Workbench NodeId := do
  let call ← (Build.call none name args : Build NodeId)
  Build.exprStmt call

end Workbench

end CodeTidy
