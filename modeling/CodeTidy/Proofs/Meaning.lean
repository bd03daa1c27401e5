import CodeTidy.Proofs.Reading
import Mathlib.Data.Finset.Sort

/-!
# What a unit does

Terms are run on a machine that has variables, a record of the calls to free functions,
and fuel for loops.  Integers have 64 bits.  Names stand for variables by their text, and
types play no part.  A run gives up where the language has nothing to say: at an unbound
variable, an operand of the wrong kind, an overflow, a loop without fuel, or a form that
the machine does not know.
-/

namespace CodeTidy

/-! ## Values -/

inductive Value where
  | bool (value : Bool)
  | int (value : Int)
  | str (text : String)
  | set (items : Finset Int)
  | null
  | void
deriving DecidableEq

namespace Value

def asBool? : Value → Option Bool
  | bool value => some value
  | _ => none

def ofInt? (value : Int) : Option Value :=
  if -2 ^ 63 ≤ value ∧ value < 2 ^ 63 then some (int value) else none

def ofLiteral : Literal → Value
  | .bool value => bool value
  | .int value => int value
  | .char value => int value.toNat
  | .str text => str text
  | .null => null

def render : Value → String
  | bool value => toString value
  | int value => toString value
  | str text => text
  | set items => "\x7b" ++ ", ".intercalate ((items.sort (· ≤ ·)).map toString) ++ "\x7d"
  | null => "null"
  | void => "void"

def unary? : PrefixOp → Value → Option Value
  | .not, bool value => some (bool !value)
  | .minus, int value => ofInt? (-value)
  | _, _ => none

def binary? : InfixOp → Value → Value → Option Value
  | .equals, a, b => some (bool (decide (a = b)))
  | .notEquals, a, b => some (bool (decide (a ≠ b)))
  | .bitAnd, bool a, bool b => some (bool (a && b))
  | .bitOr, bool a, bool b => some (bool (a || b))
  | .less, int a, int b => some (bool (decide (a < b)))
  | .greater, int a, int b => some (bool (decide (a > b)))
  | .lessEquals, int a, int b => some (bool (decide (a ≤ b)))
  | .greaterEquals, int a, int b => some (bool (decide (a ≥ b)))
  | .plus, int a, int b => ofInt? (a + b)
  | .plus, a, b => some (str (a.render ++ b.render))
  | .minus, int a, int b => ofInt? (a - b)
  | .times, int a, int b => ofInt? (a * b)
  | _, _, _ => none

def invoke? (receiver : Value) (method : String) (args : List Value) : Option (Value × Value) :=
  match receiver, method, args with
  | set items, "add", [int item] => some (bool (decide (item ∉ items)), set (insert item items))
  | set items, "remove", [int item] => some (bool (decide (item ∈ items)), set (items.erase item))
  | set items, "contains", [int item] => some (bool (decide (item ∈ items)), set items)
  | set items, "size", [] => some (int items.card, set items)
  | set items, "isEmpty", [] => some (bool (decide (items = ∅)), set items)
  | str text, "length", [] => some (int text.length, str text)
  | str text, "isEmpty", [] => some (bool (decide (text = "")), str text)
  | str text, "equals", [other] => some (bool (decide (str text = other)), str text)
  | _, _, _ => none

end Value

/-! ## Runs on a machine -/

structure Machine where
  vars : String → Option Value
  /-- Calls to free functions, in order, with rendered arguments. -/
  trace : List String
  /-- Number of loop rounds that are left. -/
  fuel : Nat

/-- A computation that changes the machine, or gives up. -/
abbrev Run := StateT Machine Option

inductive Flow where
  | normal
  | broke
  | continued
  | returned (value : Value)
deriving DecidableEq

/-- The value at which an operator leaves its other operands alone. -/
def InfixOp.stop? : InfixOp → Option Bool
  | conditionalAnd => some false
  | conditionalOr => some true
  | _ => none

namespace Run

variable {α : Type}

def lift (result : Option α) : Run α :=
  fun machine => result.map (fun value => (value, machine))

def fetch (text : String) : Run Value :=
  fun machine => (machine.vars text).map (fun value => (value, machine))

def assign (text : String) (value : Value) : Run Unit :=
  modify (fun machine => { machine with vars := Function.update machine.vars text (some value) })

def record (call : String) : Run Unit :=
  modify (fun machine => { machine with trace := machine.trace ++ [call] })

def spend : Run Unit :=
  fun machine =>
    match machine.fuel with
    | 0 => none
    | fuel + 1 => some ((), { machine with fuel := fuel })

def chainFrom (op : InfixOp) : Value → List (Run Value) → Run Value
  | value, [] => return value
  | value, operand :: rest =>
      match op.stop? with
      | some stop => do
          if (← lift value.asBool?) = stop then
            return .bool stop
          else
            let next ← operand
            chainFrom op (.bool (← lift next.asBool?)) rest
      | none => do
          let next ← operand
          chainFrom op (← lift (value.binary? op next)) rest

def chain (op : InfixOp) : List (Run Value) → Run Value
  | [] => failure
  | first :: rest => do chainFrom op (← first) rest

def inTurn : List (Run Value) → Run (List Value)
  | [] => return []
  | first :: rest => do
      let value ← first
      return value :: (← inTurn rest)

def report (function : String) (args : List Value) : Run Value := do
  record (function ++ "(" ++ ", ".intercalate (args.map Value.render) ++ ")")
  return .void

/-- A call of a method on the variable that the receiver names.  Only `String.valueOf` is
not a method of a variable. -/
def invoke (receiver : Term) (method : String) (args : List Value) : Run Value :=
  if receiver.head = .name "String" none ∧ method = "valueOf" then
    lift (args.head?.map (fun value => .str value.render))
  else
    match receiver.bare.head with
    | .name text _ => do
        let target ← fetch text
        let (result, changed) ← lift (target.invoke? method args)
        assign text changed
        return result
    | _ => failure

def sequence : List (Run Flow) → Run Flow
  | [] => return .normal
  | stmt :: rest => do
      let flow ← stmt
      if flow = .normal then sequence rest else return flow

def branch (cond : Run Value) (thenBranch elseBranch : Run Flow) : Run Flow := do
  let value ← cond
  if ← lift value.asBool? then thenBranch else elseBranch

def loopSteps (cond : Run Value) (body : Run Flow) : Nat → Run Flow
  | 0 => failure
  | rounds + 1 =>
      branch cond
        (do
          spend
          match ← body with
          | .broke => return .normal
          | .returned value => return .returned value
          | .normal | .continued => loopSteps cond body rounds)
        (return .normal)

/-- A loop.  Its fuel is gone before the condition is tested more often than this. -/
def loop (cond : Run Value) (body : Run Flow) : Run Flow :=
  fun machine => loopSteps cond body (machine.fuel + 1) machine

/-- An item of a switch body: a label with its value, the default label, or a statement. -/
inductive Item where
  | label (value : Run Value)
  | default
  | stmt (run : Run Flow)

/-- The items after the first label with the value of the subject, else those after the last
default label.  No label is evaluated after the one that matches. -/
def entry (key : Value) : Option (List Item) → List Item → Run (Option (List Item))
  | fallback, [] => return fallback
  | fallback, .label value :: rest => do
      if (← value) = key then return some rest else entry key fallback rest
  | _, .default :: rest => entry key (some rest) rest
  | fallback, .stmt _ :: rest => entry key fallback rest

def follow : List Item → Run Flow
  | [] => return .normal
  | .stmt run :: rest => do
      match ← run with
      | .normal => follow rest
      | .broke => return .normal
      | flow => return flow
  | _ :: rest => follow rest

def select (subject : Run Value) (body : List Item) : Run Flow := do
  match ← entry (← subject) none body with
  | some rest => follow rest
  | none => return .normal

end Run

/-! ## Terms -/

namespace Term

mutual

def eval : Term → Run Value
  | node (.literal value) _ _ => return .ofLiteral value
  | node (.name text _) _ _ => Run.fetch text
  | node .paren _ [inner] => eval inner
  | node (.prefixed op) _ [operand] => do Run.lift (Value.unary? op (← eval operand))
  | node (.chain op) _ operands => Run.chain op (evalAll operands)
  | node (.assign none) _ [target, expr] => do
      let value ← eval expr
      match target.head with
      | .name text _ =>
          Run.assign text value
          return value
      | _ => failure
  | node (.call false function) _ args => do Run.report function (← Run.inTurn (evalAll args))
  | node (.call true method) _ (receiver :: args) => do
      Run.invoke receiver method (← Run.inTurn (evalAll args))
  | _ => failure

def evalAll : List Term → List (Run Value)
  | [] => []
  | term :: rest => eval term :: evalAll rest

end

mutual

def exec : Term → Run Flow
  | node .unit _ stmts | node .block _ stmts => Run.sequence (execAll stmts)
  | node .exprStmt _ [expr] => do
      let _ ← eval expr
      return .normal
  | node (.varDecl text _) _ init => do
      let value ← match init with
        | [] => pure .null
        | expr :: _ => eval expr
      Run.assign text value
      return .normal
  | node .ifStmt _ [cond, thenBranch] => Run.branch (eval cond) (exec thenBranch) (return .normal)
  | node .ifStmt _ [cond, thenBranch, elseBranch] =>
      Run.branch (eval cond) (exec thenBranch) (exec elseBranch)
  | node .whileStmt _ [cond, body] => Run.loop (eval cond) (exec body)
  | node .switchStmt _ (subject :: body) => Run.select (eval subject) (itemAll body)
  | node (.breakStmt none) _ _ => return .broke
  | node (.continueStmt none) _ _ => return .continued
  | node .returnStmt _ value => do
      match value with
      | [] => return .returned .void
      | expr :: _ => return .returned (← eval expr)
  | _ => failure

def execAll : List Term → List (Run Flow)
  | [] => []
  | term :: rest => exec term :: execAll rest

def itemAll : List Term → List Run.Item
  | [] => []
  | term :: rest =>
      (match term.head, term.subs with
      | .caseLabel, label :: _ => .label (eval label)
      | .caseLabel, [] => .default
      | _, _ => .stmt (exec term)) :: itemAll rest

end

end Term

/-! ## Observations -/

structure Observation where
  returned : Option Value
  vars : String → Option Value
  trace : List String

def Machine.fuelLimit : Nat := 1000

/-- What running a unit shows, unless the run gives up. -/
def Term.execute (unit : Term) (vars : String → Option Value) : Option Observation :=
  (unit.exec ⟨vars, [], Machine.fuelLimit⟩).map (fun (flow, machine) =>
    ⟨match flow with
      | .returned value => some value
      | _ => none, machine.vars, machine.trace⟩)

end CodeTidy
