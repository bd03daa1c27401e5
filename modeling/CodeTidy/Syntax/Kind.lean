import CodeTidy.Syntax.Operator

/-!
# Node kinds

A kind says what a syntax node is: its operator, name or label, and which nodes
stand in its slots.  Two functions know the slots of every kind: `children`
lists the nodes in source order, and `withChildren` puts a list of nodes back
into the same slots.  Mapping, replacing and copying are all defined from these
two, so they agree on the order of the slots.
-/

namespace CodeTidy

abbrev NodeId := Nat

abbrev TypeId := Nat

/-- Identity of a declared variable, field or constant, shared by every name that
means it. -/
abbrev BindingId := Nat

inductive Literal where
  | bool (value : Bool)
  | int (value : Int)
  | char (value : Char)
  | str (value : String)
  | null
deriving DecidableEq

/-- What a syntax node is.  A name without a binding could not be resolved. -/
inductive Kind where
  /-- A literal value. -/
  | literal (value : Literal)
  /-- A simple name. -/
  | name (text : String) (binding : Option BindingId)
  /-- A dotted name: a qualifier and a simple name. -/
  | qualified (qualifier simple : NodeId)
  /-- Field `name` of the value of `target`. -/
  | field (target : NodeId) (name : String)
  /-- An expression in parentheses. -/
  | paren (inner : NodeId)
  /-- An operator before its operand. -/
  | prefixed (op : PrefixOp) (operand : NodeId)
  /-- An operator after its operand. -/
  | postfixed (op : PostfixOp) (operand : NodeId)
  /-- Operands joined by one operator, grouped from the left. -/
  | chain (op : InfixOp) (operands : List NodeId)
  /-- An assignment; with an operator it is a compound assignment. -/
  | assign (op : Option InfixOp) (target value : NodeId)
  /-- A method call, with or without a receiver. -/
  | call (receiver : Option NodeId) (name : String) (args : List NodeId)
  /-- An object creation; the class is the type of the node. -/
  | creation (args : List NodeId)
  /-- An expression used as a statement. -/
  | exprStmt (expr : NodeId)
  /-- A local variable; the declared type is the type of the node. -/
  | varDecl (name : String) (binding : Option BindingId) (init : Option NodeId)
  /-- Statements in braces. -/
  | block (stmts : List NodeId)
  /-- A conditional statement. -/
  | ifStmt (cond thenBranch : NodeId) (elseBranch : Option NodeId)
  /-- A loop that tests before each turn. -/
  | whileStmt (cond body : NodeId)
  /-- A switch; its body mixes labels and statements in one flat list. -/
  | switchStmt (subject : NodeId) (body : List NodeId)
  /-- A label of a switch body; without an expression it is the default label. -/
  | caseLabel (label : Option NodeId)
  | breakStmt (label : Option String)
  | continueStmt (label : Option String)
  | returnStmt (value : Option NodeId)
  | throwStmt (expr : NodeId)
  /-- The root of a compilation unit. -/
  | unit (members : List NodeId)
deriving DecidableEq

namespace Kind

/-! ## Slots -/

/-- The nodes in the slots of a kind, in source order. -/
def children : Kind → List NodeId
  | literal _ | name _ _ | breakStmt _ | continueStmt _ => []
  | qualified qualifier simple => [qualifier, simple]
  | field target _ => [target]
  | paren inner => [inner]
  | prefixed _ operand => [operand]
  | postfixed _ operand => [operand]
  | chain _ operands => operands
  | assign _ target value => [target, value]
  | call receiver _ args => receiver.toList ++ args
  | creation args => args
  | exprStmt expr => [expr]
  | varDecl _ _ init => init.toList
  | block stmts => stmts
  | ifStmt cond thenBranch elseBranch => cond :: thenBranch :: elseBranch.toList
  | whileStmt cond body => [cond, body]
  | switchStmt subject body => subject :: body
  | caseLabel label => label.toList
  | returnStmt value => value.toList
  | throwStmt expr => [expr]
  | unit members => members

/-- The same kind with the given nodes in its slots.  A list of the wrong length
leaves the kind as it is. -/
def withChildren : Kind → List NodeId → Kind
  | qualified _ _, [qualifier, simple] => qualified qualifier simple
  | field _ label, [target] => field target label
  | paren _, [inner] => paren inner
  | prefixed op _, [operand] => prefixed op operand
  | postfixed op _, [operand] => postfixed op operand
  | chain op _, operands => chain op operands
  | assign op _ _, [target, value] => assign op target value
  | call none method _, args => call none method args
  | call (some _) method _, receiver :: args => call (some receiver) method args
  | creation _, args => creation args
  | exprStmt _, [expr] => exprStmt expr
  | varDecl text binding (some _), [init] => varDecl text binding (some init)
  | block _, stmts => block stmts
  | ifStmt _ _ none, [cond, thenBranch] => ifStmt cond thenBranch none
  | ifStmt _ _ (some _), [cond, thenBranch, elseBranch] =>
      ifStmt cond thenBranch (some elseBranch)
  | whileStmt _ _, [cond, body] => whileStmt cond body
  | switchStmt _ _, subject :: body => switchStmt subject body
  | caseLabel (some _), [label] => caseLabel (some label)
  | returnStmt (some _), [value] => returnStmt (some value)
  | throwStmt _, [expr] => throwStmt expr
  | unit _, members => unit members
  | kind, _ => kind

theorem withChildren_children (kind : Kind) : kind.withChildren kind.children = kind := by
  cases kind with
  | call receiver method args => cases receiver <;> rfl
  | varDecl text binding init => cases init <;> rfl
  | ifStmt cond thenBranch elseBranch => cases elseBranch <;> rfl
  | caseLabel label => cases label <;> rfl
  | returnStmt value => cases value <;> rfl
  | _ => rfl

/-- Putting as many nodes as there are slots into a kind fills exactly its slots. -/
theorem children_withChildren {kind : Kind} {nodes : List NodeId}
    (h : nodes.length = kind.children.length) :
    (kind.withChildren nodes).children = nodes := by
  cases kind with
  | call receiver method args =>
      cases receiver with
      | none => rfl
      | some r => cases nodes <;> simp_all [children, withChildren]
  | varDecl text binding init =>
      cases init <;> rcases nodes with _ | ⟨a, _ | _⟩ <;> simp_all [children, withChildren]
  | ifStmt cond thenBranch elseBranch =>
      cases elseBranch <;> rcases nodes with _ | ⟨a, _ | ⟨b, _ | ⟨c, _ | _⟩⟩⟩ <;>
        simp_all [children, withChildren]
  | caseLabel label =>
      cases label <;> rcases nodes with _ | ⟨a, _ | _⟩ <;> simp_all [children, withChildren]
  | returnStmt value =>
      cases value <;> rcases nodes with _ | ⟨a, _ | _⟩ <;> simp_all [children, withChildren]
  | chain op operands => rfl
  | creation args => rfl
  | block stmts => rfl
  | unit members => rfl
  | switchStmt subject body => cases nodes <;> simp_all [children, withChildren]
  | _ => rcases nodes with _ | ⟨a, _ | ⟨b, _ | _⟩⟩ <;> simp_all [children, withChildren]

/-- Runs `f` on every child in source order and puts the results into the slots. -/
def mapChildrenM {m : Type → Type} [Monad m] (f : NodeId → m NodeId) (kind : Kind) :
    m Kind := do
  return kind.withChildren (← kind.children.mapM f)

/-! ## Changing one slot -/

/-- Puts `fresh` into the first slot that holds `old`; fails if no slot does. -/
def replaceChild? (kind : Kind) (old fresh : NodeId) : Option Kind :=
  if old ∈ kind.children then
    some (kind.withChildren (kind.children.replace old fresh))
  else
    none

theorem replaceChild?_eq_none_iff {kind : Kind} {old fresh : NodeId} :
    kind.replaceChild? old fresh = none ↔ old ∉ kind.children := by
  simp [replaceChild?]

/-- A replacement changes the list of children at the first place of the old child. -/
theorem children_of_replaceChild? {kind changed : Kind} {old fresh : NodeId}
    (h : kind.replaceChild? old fresh = some changed) :
    changed.children = kind.children.replace old fresh := by
  unfold replaceChild? at h
  split at h
  · cases h
    exact children_withChildren (by simp)
  · cases h

/-- Takes `child` out of a statement list or an optional slot; fails if it stands
in neither. -/
def dropChild? (child : NodeId) : Kind → Option Kind
  | block stmts =>
      if child ∈ stmts then some (block (stmts.erase child)) else none
  | switchStmt subject body =>
      if child ∈ body then some (switchStmt subject (body.erase child)) else none
  | unit members =>
      if child ∈ members then some (unit (members.erase child)) else none
  | ifStmt cond thenBranch elseBranch =>
      if elseBranch = some child then some (ifStmt cond thenBranch none) else none
  | varDecl text binding init =>
      if init = some child then some (varDecl text binding none) else none
  | returnStmt value =>
      if value = some child then some (returnStmt none) else none
  | _ => none

inductive Removal where
  /-- The kind without the child. -/
  | done (kind : Kind)
  /-- The child stands in a slot that cannot be empty. -/
  | required
  /-- There is no such child. -/
  | absent
deriving DecidableEq

def removeChild (kind : Kind) (child : NodeId) : Removal :=
  match kind.dropChild? child with
  | some rest => .done rest
  | none => if child ∈ kind.children then .required else .absent

theorem removeChild_eq_absent_iff {kind : Kind} {child : NodeId} :
    kind.removeChild child = .absent ↔
      kind.dropChild? child = none ∧ child ∉ kind.children := by
  unfold removeChild
  split
  · next rest h => simp [h]
  · next h => simp [h]

def statementList? : Kind → Option (List NodeId)
  | block stmts => some stmts
  | switchStmt _ body => some body
  | unit members => some members
  | _ => none

def withStatementList : Kind → List NodeId → Kind
  | block _, stmts => block stmts
  | switchStmt subject _, body => switchStmt subject body
  | unit _, members => unit members
  | kind, _ => kind

inductive Side where
  | before
  | after
deriving DecidableEq

/-- Puts `fresh` beside the first occurrence of `anchor` in a list. -/
def insertBeside (anchor fresh : NodeId) (side : Side) : List NodeId → List NodeId
  | [] => []
  | node :: rest =>
      if node = anchor then
        match side with
        | .before => fresh :: node :: rest
        | .after => node :: fresh :: rest
      else
        node :: insertBeside anchor fresh side rest

def insertChild? (kind : Kind) (anchor fresh : NodeId) (side : Side) : Option Kind :=
  match kind.statementList? with
  | some list =>
      if anchor ∈ list then
        some (kind.withStatementList (insertBeside anchor fresh side list))
      else
        none
  | none => none

/-! ## Classification -/

/-- Binding strength of an expression; statements have none. -/
def strength? : Kind → Option Nat
  | literal _ | name _ _ | qualified _ _ | field _ _ | paren _ | call _ _ _ | creation _ =>
      some Strength.primary
  | postfixed _ _ => some Strength.trailing
  | prefixed _ _ => some Strength.unary
  | chain op _ => some op.strength
  | assign _ _ _ => some Strength.assignment
  | _ => none

def isExpression (kind : Kind) : Bool :=
  kind.strength?.isSome

def isBlock : Kind → Bool
  | block _ => true
  | _ => false

def isCaseLabel : Kind → Bool
  | caseLabel _ => true
  | _ => false

end Kind

end CodeTidy
