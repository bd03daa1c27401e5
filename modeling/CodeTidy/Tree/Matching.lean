import CodeTidy.Tree.Analysis

/-!
# Expressions that mean the same

`Store.alike` accepts two expressions only if they denote the same
computation.  Parentheses do not count, names compare by what they are bound to,
and a comparison matches its swapped form if no operand has a side effect.
-/

namespace CodeTidy

namespace Store

def allMatch (same : NodeId → NodeId → Bool) : List NodeId → List NodeId → Bool
  | [], [] => true
  | a :: as, b :: bs => same a b && allMatch same as bs
  | _, _ => false

def optionMatch (same : NodeId → NodeId → Bool) : Option NodeId → Option NodeId → Bool
  | none, none => true
  | some a, some b => same a b
  | _, _ => false

/-- Whether a two-operand comparison matches another with the operands exchanged. -/
def swapMatch (store : Store) (same : NodeId → NodeId → Bool) (op otherOp : InfixOp) :
    List NodeId → List NodeId → Bool
  | [a, b], [c, d] =>
      op.isComparison && otherOp == op.swapped && [a, b, c, d].all store.isPassive &&
        same a d && same b c
  | _, _ => false

def kindsMatch (store : Store) (same : NodeId → NodeId → Bool) : Kind → Kind → Bool
  | .literal a, .literal b => a == b
  | .name _ (some a), .name _ (some b) => a == b
  | .qualified q n, .qualified q' n' => same n n' && same q q'
  | .field target label, .field target' label' => label == label' && same target target'
  | .prefixed op operand, .prefixed op' operand' => op == op' && same operand operand'
  | .postfixed op operand, .postfixed op' operand' => op == op' && same operand operand'
  | .chain op operands, .chain op' operands' =>
      (op == op' && allMatch same operands operands') ||
        store.swapMatch same op op' operands operands'
  | .assign op target value, .assign op' target' value' =>
      op == op' && same target target' && same value value'
  | .call receiver method args, .call receiver' method' args' =>
      method == method' && optionMatch same receiver receiver' && allMatch same args args'
  | _, _ => false

/-- Whether two expressions denote the same computation. -/
def alike (store : Store) (a b : NodeId) : Bool :=
  store.fold (fun (_ : NodeId) => false)
    (fun here found below other =>
      match found.kind with
      | .paren inner => below inner other
      | kind =>
          let there := store.unparenthesized other
          here == there || store.kindsMatch below kind (store.kind there))
    a b

end Store

end CodeTidy
