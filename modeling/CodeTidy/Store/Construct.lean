import CodeTidy.Store.Build
import CodeTidy.Tree.Analysis

/-!
# Constructors

Functions that create one node each and give it the type that is evident: a
comparison is boolean, an integer literal is an `int`, parentheses have the type
of what they hold.  `parenthesize` and its relatives add the parentheses that a
slot needs, and `negate` builds the negation of a condition.
-/

namespace CodeTidy

namespace Build

/-! ## Literals and names -/

def boolLit (value : Bool) : Build NodeId := do
  let type ← internType .boolean
  create (.literal (.bool value)) (some type)

def intLit (value : Int) : Build NodeId := do
  let type ← internType .int
  create (.literal (.int value)) (some type)

def charLit (value : Char) : Build NodeId := do
  let type ← internType .char
  create (.literal (.char value)) (some type)

def stringLit (value : String) : Build NodeId := do
  let type ← internType .string
  create (.literal (.str value)) (some type)

def nullLit : Build NodeId :=
  create (.literal .null) none

def name (text : String) (binding : Option BindingId) (type : Option TypeId) : Build NodeId :=
  create (.name text binding) type

def qualified (qualifier simple : NodeId) : Build NodeId := do
  let type ← typeIdOf simple
  create (.qualified qualifier simple) type

def appendSegment (qualifier : NodeId) (segment : String) : Build NodeId := do
  let simple ← name segment none none
  qualified qualifier simple

/-- A type given by its dotted name; no segment has a binding. -/
def typeName (dotted : String) : Build NodeId := do
  let (first, later) := Dotted.segments dotted
  let start ← name first none none
  later.foldlM appendSegment start

def field (target : NodeId) (label : String) (type : Option TypeId) : Build NodeId :=
  create (.field target label) type

/-! ## Operators -/

def paren (inner : NodeId) : Build NodeId := do
  let type ← typeIdOf inner
  create (.paren inner) type

/-- Wraps an expression in parentheses if a slot of strength `outer` needs them: if
the expression binds looser, or equally and looser than a unary operator. -/
def parenthesize (expr : NodeId) (outer : Nat) : Build NodeId := do
  let inner := (← kindOf expr).strength?.getD Strength.primary
  if inner < outer || (inner == outer && inner < Strength.unary) then
    paren expr
  else
    return expr

/-- An operator before its operand.  A negation is boolean; the others have the type
of the operand. -/
def prefixed (op : PrefixOp) (operand : NodeId) : Build NodeId := do
  let type ←
    match op with
    | .not => do
        let boolean ← internType .boolean
        pure (some boolean)
    | _ => typeIdOf operand
  create (.prefixed op operand) type

def not (operand : NodeId) : Build NodeId := do
  let inner ← parenthesize operand Strength.unary
  prefixed .not inner

/-- At least two operands joined by an operator.  Comparisons and conditionals are
boolean; the others have the type of the first operand. -/
def chain (op : InfixOp) (operands : List NodeId) : Build NodeId :=
  match operands with
  | first :: _ :: _ => do
      let type ←
        if op.isComparison || op.isConditional then do
          let boolean ← internType .boolean
          pure (some boolean)
        else
          typeIdOf first
      create (.chain op operands) type
  | _ => throw (.fewOperands op)

/-- Operands joined by an operator, each with the parentheses it needs.  A single
operand is returned as it is. -/
def join (op : InfixOp) (operands : List NodeId) : Build NodeId :=
  match operands with
  | [] => throw .noOperands
  | [operand] => return operand
  | _ => do
      let wrapped ← operands.mapM (fun operand => parenthesize operand op.strength)
      chain op wrapped

def assign (target value : NodeId) : Build NodeId := do
  let type ← typeIdOf target
  create (.assign none target value) type

/-- Type of a call that is evident from the name of the method. -/
def resultType? (method : String) : Option TypeDesc :=
  if method = "isEmpty" || method = "equals" then some .boolean
  else if method = "valueOf" then some .string
  else none

def call (receiver : Option NodeId) (method : String) (args : List NodeId) : Build NodeId := do
  let receiver ← receiver.mapM (fun target => parenthesize target Strength.primary)
  let type ← (resultType? method).mapM internType
  create (.call receiver method args) type

def creation (type : TypeId) (args : List NodeId) : Build NodeId :=
  create (.creation args) (some type)

/-! ## Statements -/

def exprStmt (expr : NodeId) : Build NodeId :=
  create (.exprStmt expr) none

def varDecl (text : String) (binding : Option BindingId) (type : Option TypeId)
    (init : Option NodeId) : Build NodeId :=
  create (.varDecl text binding init) type

def block (stmts : List NodeId) : Build NodeId :=
  create (.block stmts) none

def ifStmt (cond thenBranch : NodeId) (elseBranch : Option NodeId) : Build NodeId :=
  create (.ifStmt cond thenBranch elseBranch) none

def whileStmt (cond body : NodeId) : Build NodeId :=
  create (.whileStmt cond body) none

def switchStmt (subject : NodeId) (body : List NodeId) : Build NodeId :=
  create (.switchStmt subject body) none

def caseLabel (label : Option NodeId) : Build NodeId :=
  create (.caseLabel label) none

def breakStmt (label : Option String) : Build NodeId :=
  create (.breakStmt label) none

def continueStmt (label : Option String) : Build NodeId :=
  create (.continueStmt label) none

def returnStmt (value : Option NodeId) : Build NodeId :=
  create (.returnStmt value) none

def throwStmt (expr : NodeId) : Build NodeId :=
  create (.throwStmt expr) none

def unit (members : List NodeId) : Build NodeId :=
  create (.unit members) none

end Build

/-! ## Slots and negation -/

/-- Strength that a slot demands of the expression in it, given the kind that holds
the slot.  Arguments, parentheses and statement slots demand nothing. -/
def Kind.slotStrength? (holder : Kind) (child : NodeId) : Option Nat :=
  match holder with
  | .chain op _ => some op.strength
  | .prefixed _ _ => some Strength.unary
  | .postfixed _ _ => some Strength.trailing
  | .field _ _ => some Strength.primary
  | .call receiver _ _ => if receiver = some child then some Strength.primary else none
  | .assign _ target _ => if target = child then some Strength.primary else none
  | _ => none

def Store.slotStrength? (store : Store) (id : NodeId) : Option Nat :=
  (store.parent id).bind (fun owner => (store.kind owner).slotStrength? id)

namespace Build

def parenthesizeFor (expr target : NodeId) : Build NodeId := do
  let _ ← lookup target
  match (← get).slotStrength? target with
  | some outer => parenthesize expr outer
  | none => return expr

/-- The negation of a condition.  A double negation is dropped, a literal is flipped,
and a comparison of two operands is inverted if `invert` allows it; all else gets a
`!` in front. -/
def negate (expr : Child) (invert : Bool) : Build NodeId := do
  let _ ← lookup expr.node
  let store ← get
  match store.kind (store.unparenthesized expr.node) with
  | .prefixed .not operand => do
      let _ ← dissolve expr [operand]
      return operand
  | .literal (.bool value) => do
      release expr
      boolLit (!value)
  | .chain op [left, right] =>
      match (if invert then op.inverse? else none) with
      | some inverse => do
          let parts ← dissolve expr [left, right]
          chain inverse (parts.map Child.node)
      | none => not expr.node
  | _ => not expr.node

end Build

end CodeTidy
