/-!
# Operators and binding strength

The operators of the expression language, their source text, and the order in
which they bind.  A greater strength binds tighter.  Comparisons have an inverse
(the comparison that is true exactly when this one is false) and a swapped form
(the comparison to use when the operands change sides); boolean connectives have
a dual, the connective that negation turns them into.
-/

namespace CodeTidy

/-! ## Binding strengths -/

namespace Strength

/-- Strength of an assignment, the loosest expression. -/
def assignment : Nat := 1
def conditionalOr : Nat := 3
def conditionalAnd : Nat := 4
def bitOr : Nat := 5
def bitXor : Nat := 6
def bitAnd : Nat := 7
def equality : Nat := 8
def relational : Nat := 9
def shift : Nat := 10
def additive : Nat := 11
def multiplicative : Nat := 12
def unary : Nat := 13
def trailing : Nat := 14
/-- Strength of an expression that is never split: a name, a call, parentheses. -/
def primary : Nat := 15

end Strength

/-! ## Unary operators -/

inductive PrefixOp where
  | not
  | minus
  | plus
  | complement
  | increment
  | decrement
deriving DecidableEq

namespace PrefixOp

def all : List PrefixOp := [not, minus, plus, complement, increment, decrement]

def symbol : PrefixOp → String
  | not => "!"
  | minus => "-"
  | plus => "+"
  | complement => "~"
  | increment => "++"
  | decrement => "--"

def ofSymbol? (text : String) : Option PrefixOp :=
  all.find? (fun op => op.symbol == text)

def hasSideEffect : PrefixOp → Bool
  | increment | decrement => true
  | _ => false

theorem mem_all (op : PrefixOp) : op ∈ all := by
  cases op <;> decide

theorem ofSymbol?_symbol (op : PrefixOp) : ofSymbol? op.symbol = some op := by
  cases op <;> decide

end PrefixOp

inductive PostfixOp where
  | increment
  | decrement
deriving DecidableEq

namespace PostfixOp

def all : List PostfixOp := [increment, decrement]

def symbol : PostfixOp → String
  | increment => "++"
  | decrement => "--"

def ofSymbol? (text : String) : Option PostfixOp :=
  all.find? (fun op => op.symbol == text)

theorem ofSymbol?_symbol (op : PostfixOp) : ofSymbol? op.symbol = some op := by
  cases op <;> decide

end PostfixOp

/-! ## Binary operators -/

inductive InfixOp where
  | times
  | divide
  | remainder
  | plus
  | minus
  | leftShift
  | rightShift
  | unsignedRightShift
  | less
  | greater
  | lessEquals
  | greaterEquals
  | equals
  | notEquals
  | bitAnd
  | bitXor
  | bitOr
  | conditionalAnd
  | conditionalOr
deriving DecidableEq

namespace InfixOp

def all : List InfixOp :=
  [times, divide, remainder, plus, minus, leftShift, rightShift,
    unsignedRightShift, less, greater, lessEquals, greaterEquals, equals,
    notEquals, bitAnd, bitXor, bitOr, conditionalAnd, conditionalOr]

def symbol : InfixOp → String
  | times => "*"
  | divide => "/"
  | remainder => "%"
  | plus => "+"
  | minus => "-"
  | leftShift => "<<"
  | rightShift => ">>"
  | unsignedRightShift => ">>>"
  | less => "<"
  | greater => ">"
  | lessEquals => "<="
  | greaterEquals => ">="
  | equals => "=="
  | notEquals => "!="
  | bitAnd => "&"
  | bitXor => "^"
  | bitOr => "|"
  | conditionalAnd => "&&"
  | conditionalOr => "||"

def ofSymbol? (text : String) : Option InfixOp :=
  all.find? (fun op => op.symbol == text)

def strength : InfixOp → Nat
  | conditionalOr => Strength.conditionalOr
  | conditionalAnd => Strength.conditionalAnd
  | bitOr => Strength.bitOr
  | bitXor => Strength.bitXor
  | bitAnd => Strength.bitAnd
  | equals | notEquals => Strength.equality
  | less | greater | lessEquals | greaterEquals => Strength.relational
  | leftShift | rightShift | unsignedRightShift => Strength.shift
  | plus | minus => Strength.additive
  | times | divide | remainder => Strength.multiplicative

def isOrdering : InfixOp → Bool
  | less | greater | lessEquals | greaterEquals => true
  | _ => false

def isComparison : InfixOp → Bool
  | equals | notEquals => true
  | op => op.isOrdering

def isConditional : InfixOp → Bool
  | conditionalAnd | conditionalOr => true
  | _ => false

/-- The comparison that is true exactly when this one is false. -/
def inverse? : InfixOp → Option InfixOp
  | equals => some notEquals
  | notEquals => some equals
  | less => some greaterEquals
  | greaterEquals => some less
  | greater => some lessEquals
  | lessEquals => some greater
  | _ => none

/-- The operator to use when the two operands change sides. -/
def swapped : InfixOp → InfixOp
  | less => greater
  | greater => less
  | lessEquals => greaterEquals
  | greaterEquals => lessEquals
  | op => op

/-- The connective a boolean connective becomes when negation moves inside. -/
def dual? : InfixOp → Option InfixOp
  | conditionalAnd => some conditionalOr
  | conditionalOr => some conditionalAnd
  | bitAnd => some bitOr
  | bitOr => some bitAnd
  | _ => none

theorem mem_all (op : InfixOp) : op ∈ all := by
  cases op <;> decide

theorem ofSymbol?_symbol (op : InfixOp) : ofSymbol? op.symbol = some op := by
  cases op <;> decide

theorem swapped_swapped (op : InfixOp) : op.swapped.swapped = op := by
  cases op <;> rfl

theorem isComparison_swapped (op : InfixOp) : op.swapped.isComparison = op.isComparison := by
  cases op <;> rfl

theorem inverse?_isSome (op : InfixOp) : op.inverse?.isSome = op.isComparison := by
  cases op <;> rfl

end InfixOp

end CodeTidy
