import CodeTidy.Store.Edit
import CodeTidy.Store.Construct

/-!
# Rules

A rule is offered one node at a time and answers with the edits it wants.  It may
build new nodes and request moves, and leaves the live tree to the committed
edits.  A rule may carry a memory from offer to offer; the rules of the catalog
have none.
-/

namespace CodeTidy

structure Options where
  /-- Oldest language version the code must still run on. -/
  languageLevel : Nat := 8
deriving DecidableEq

/-- Whether a rule wants to see the nodes below a node it did not edit. -/
inductive Signal where
  | advance
  | skip
deriving DecidableEq

structure Response where
  edits : List Edit
  signal : Signal
deriving DecidableEq

namespace Response

def decline : Response := ⟨[], .advance⟩

def edit (edits : List Edit) : Response := ⟨edits, .skip⟩

def replaceBy (target replacement : NodeId) : Response :=
  edit [⟨target, .replace (.fresh replacement)⟩]

end Response

/-- A rule with a memory of the given type. -/
structure Rule (Memory : Type) where
  name : String
  respond : Options → NodeId → StateT Memory Build Response

namespace Rule

def plain {Memory : Type} (name : String) (respond : Options → NodeId → Build Response) :
    Rule Memory where
  name := name
  respond options node := StateT.lift (respond options node)

end Rule

namespace Build

/-- The edit that makes a statement disappear: it is removed if its slot may be
empty, and replaced by an empty block otherwise. -/
def dropStatement (stmt : NodeId) : Build Edit := do
  if (← get).canRemove stmt then
    return ⟨stmt, .remove⟩
  else
    let empty ← block []
    return ⟨stmt, .replace (.fresh empty)⟩

end Build

end CodeTidy
