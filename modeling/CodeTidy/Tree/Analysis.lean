import CodeTidy.Tree.Traversal

/-!
# What can be told from the tree

Answers about side effects, jumps, locals and literals.  Each is cautious: where
the tree does not settle a question the answer is the one that keeps a rule from
acting.
-/

namespace CodeTidy

namespace Store

/-! ## Literals -/

def boolLiteral? (store : Store) (expr : NodeId) : Option Bool :=
  match store.kind (store.unparenthesized expr) with
  | .literal (.bool value) => some value
  | _ => none

def intLiteral? (store : Store) (expr : NodeId) : Option Int :=
  match store.kind (store.unparenthesized expr) with
  | .literal (.int value) => some value
  | _ => none

/-! ## Side effects -/

/-- Whether evaluating an expression has no side effect.  Nothing is known about what
a call or a creation does. -/
def isPassive (store : Store) (expr : NodeId) : Bool :=
  store.fold false
    (fun _ found below =>
      match found.kind with
      | .literal _ | .name _ _ | .qualified _ _ => true
      | .field target _ => below target
      | .paren inner => below inner
      | .prefixed op operand => !op.hasSideEffect && below operand
      | .chain _ operands => operands.all below
      | _ => false)
    expr

/-! ## Names and locals -/

def isNameOf (store : Store) (bindings : List BindingId) (id : NodeId) : Bool :=
  match store.kind id with
  | .name _ (some binding) => bindings.contains binding
  | _ => false

def mentions (store : Store) (root : NodeId) (bindings : List BindingId) : Bool :=
  (store.preorder root).any (store.isNameOf bindings)

/-- The entity a node declares: `none` if it declares nothing, and `some none` if it
declares something unresolved. -/
def declared? (store : Store) (id : NodeId) : Option (Option BindingId) :=
  match store.kind id with
  | .varDecl _ binding _ => some binding
  | _ => none

/-- The locals that a statement declares in its own statement list, in source order.
There is no answer if a declaration is unresolved. -/
def declaredLocals (store : Store) (stmt : NodeId) : Option (List BindingId) :=
  if (store.kind stmt).isBlock then
    some []
  else
    ((store.statementScope stmt).filterMap store.declared?).mapM id

/-! ## Jumps -/

/-- Loops and switches: a plain break inside them ends only them. -/
def catchesBreak (store : Store) (id : NodeId) : Bool :=
  match store.kind id with
  | .whileStmt _ _ | .switchStmt _ _ => true
  | _ => false

def isPlainBreak (store : Store) (id : NodeId) : Bool :=
  match store.kind id with
  | .breakStmt none => true
  | _ => false

/-- Whether a statement holds a plain break that ends a loop or switch around it. -/
def hasLooseBreak (store : Store) (stmt : NodeId) : Bool :=
  (store.listing (store.childrenUnless store.catchesBreak) stmt).any store.isPlainBreak

def endsWithJump (store : Store) (stmt : NodeId) : Bool :=
  store.fold false
    (fun _ found below =>
      match found.kind with
      | .breakStmt _ | .continueStmt _ | .returnStmt _ | .throwStmt _ => true
      | .block stmts => stmts.getLast?.any below
      | .ifStmt _ thenBranch (some elseBranch) => below thenBranch && below elseBranch
      | _ => false)
    stmt

/-- A missing branch, or a block without statements. -/
def isEmptyBranch (store : Store) : Option NodeId → Bool
  | none => true
  | some stmt =>
      match store.kind stmt with
      | .block stmts => stmts.isEmpty
      | _ => false

/-! ## Comparisons -/

/-- Types with a value that is neither below, above nor equal to any value. -/
def floatingTypes : List String :=
  ["float", "double", "java.lang.Float", "java.lang.Double"]

def isTotallyOrdered (store : Store) (operand : NodeId) : Bool :=
  (store.typeOf operand).any (fun type => !type.isOneOf floatingTypes)

/-- Whether an expression compares two operands and is false exactly when the inverse
comparison is true.  For orderings this needs operands that are totally ordered. -/
def isInvertible (store : Store) (expr : NodeId) : Bool :=
  match store.kind (store.unparenthesized expr) with
  | .chain op operands =>
      operands.length == 2 && op.inverse?.isSome &&
        (!op.isOrdering || operands.all store.isTotallyOrdered)
  | _ => false

end Store

end CodeTidy
