import CodeTidy.Tree.Traversal

/-!
# Text of a tree

Java-like text for expressions and statements.  Blocks open on the line of their
statement, other branches go on a line of their own, and every level is indented
by four spaces.  A statement where an expression belongs is written in angle
brackets, as its kind and its slots.
-/

namespace CodeTidy

/-! ## Literals -/

namespace Literal

def doubleQuote : Char := Char.ofNat 34

def singleQuote : Char := Char.ofNat 39

def hex (n : Nat) : String :=
  String.ofList (Nat.toDigits 16 n)

/-- A character inside single quotes.  Tab, return, newline, quotes and backslash have
an escape, printable ASCII stands for itself, and all else is given by its code. -/
def escapeChar (c : Char) : String :=
  if c = '\t' then "\\t"
  else if c = '\r' then "\\r"
  else if c = '\n' then "\\n"
  else if c = singleQuote || c = doubleQuote || c = '\\' then String.ofList ['\\', c]
  else if 32 ≤ c.toNat && c.toNat ≤ 126 then String.singleton c
  else "\\u\x7b" ++ hex c.toNat ++ "\x7d"

/-- A character inside double quotes.  Only the quote, the backslash, newline and tab
have an escape. -/
def escapeInString (c : Char) : List Char :=
  if c = doubleQuote || c = '\\' then ['\\', c]
  else if c = '\n' then ['\\', 'n']
  else if c = '\t' then ['\\', 't']
  else [c]

def text : Literal → String
  | bool true => "true"
  | bool false => "false"
  | int value => toString value
  | char value =>
      String.singleton singleQuote ++ escapeChar value ++ String.singleton singleQuote
  | str value =>
      String.ofList (doubleQuote :: value.toList.flatMap escapeInString ++ [doubleQuote])
  | null => "null"

end Literal

/-! ## Kinds with their slots -/

namespace Kind

def optionName : Option NodeId → String
  | none => "None"
  | some node => "Some(" ++ Fault.nodeName node ++ ")"

def listName (nodes : List NodeId) : String :=
  "[" ++ String.intercalate ", " (nodes.map Fault.nodeName) ++ "]"

def labelName : Option String → String
  | none => "None"
  | some label => "Some(" ++ label ++ ")"

def braces (head : String) (fields : List (String × String)) : String :=
  head ++ " \x7b "
    ++ String.intercalate ", " (fields.map (fun field => field.1 ++ ": " ++ field.2))
    ++ " \x7d"

/-- A statement as its kind and its slots; expressions have no such description. -/
def describe : Kind → String
  | exprStmt expr => braces "ExprStmt" [("expr", Fault.nodeName expr)]
  | varDecl text binding init =>
      let bound := match binding with
        | none => "None"
        | some id => "Some(b" ++ Nat.repr id ++ ")"
      braces "VarDecl" [("name", text), ("binding", bound), ("init", optionName init)]
  | block stmts => braces "Block" [("stmts", listName stmts)]
  | ifStmt cond thenBranch elseBranch =>
      braces "If"
        [("cond", Fault.nodeName cond), ("then_branch", Fault.nodeName thenBranch),
          ("else_branch", optionName elseBranch)]
  | whileStmt cond body =>
      braces "While" [("cond", Fault.nodeName cond), ("body", Fault.nodeName body)]
  | switchStmt subject body =>
      braces "Switch" [("discriminant", Fault.nodeName subject), ("body", listName body)]
  | caseLabel label => braces "SwitchCase" [("label", optionName label)]
  | breakStmt label => braces "Break" [("label", labelName label)]
  | continueStmt label => braces "Continue" [("label", labelName label)]
  | returnStmt value => braces "Return" [("value", optionName value)]
  | throwStmt expr => braces "Throw" [("expr", Fault.nodeName expr)]
  | unit members => braces "Unit" [("members", listName members)]
  | _ => ""

end Kind

namespace Store

/-! ## Expressions -/

def argumentsText (args : List String) : String :=
  "(" ++ String.intercalate ", " args ++ ")"

def exprStep (store : Store) (id : NodeId) (found : Node) (below : NodeId → String) : String :=
  match found.kind with
  | .literal value => value.text
  | .name text _ => text
  | .qualified qualifier simple => below qualifier ++ "." ++ below simple
  | .field target label => below target ++ "." ++ label
  | .paren inner => "(" ++ below inner ++ ")"
  | .prefixed op operand => op.symbol ++ below operand
  | .postfixed op operand => below operand ++ op.symbol
  | .chain op operands =>
      String.intercalate (" " ++ op.symbol ++ " ") (operands.map below)
  | .assign op target value =>
      let sign := match op with
        | some op => " " ++ op.symbol ++ "= "
        | none => " = "
      below target ++ sign ++ below value
  | .call receiver method args =>
      let target := match receiver with
        | some receiver => below receiver ++ "."
        | none => ""
      target ++ method ++ argumentsText (args.map below)
  | .creation args =>
      let className := match store.typeOf id with
        | some type => type.simpleName
        | none => "<unknown>"
      "new " ++ className ++ argumentsText (args.map below)
  | kind => "<statement " ++ kind.describe ++ ">"

def exprText (store : Store) (id : NodeId) : String :=
  store.fold "" store.exprStep id

/-! ## Statements -/

def indent (depth : Nat) : String :=
  String.ofList (List.replicate (4 * depth) ' ')

/-- Body of a conditional or a loop: a block stays on the line, anything else goes on
a line of its own. -/
def branchText (store : Store) (below : NodeId → Nat → String) (branch : NodeId)
    (depth : Nat) : String :=
  if (store.kind branch).isBlock then
    " " ++ below branch depth
  else
    "\n" ++ indent (depth + 1) ++ below branch (depth + 1)

/-- The alternative of a conditional; a conditional there continues on the line. -/
def elseText (store : Store) (below : NodeId → Nat → String) (thenBranch branch : NodeId)
    (depth : Nat) : String :=
  let start := if (store.kind thenBranch).isBlock then " " else "\n" ++ indent depth
  let rest := match store.kind branch with
    | .ifStmt _ _ _ => " " ++ below branch depth
    | _ => store.branchText below branch depth
  start ++ "else" ++ rest

/-- One line of a switch body: labels stand one level deep, statements two. -/
def switchLine (store : Store) (below : NodeId → Nat → String) (depth : Nat)
    (item : NodeId) : String :=
  let inner := if (store.kind item).isCaseLabel then depth + 1 else depth + 2
  indent inner ++ below item inner ++ "\n"

/-- Text of a statement at a depth, its first line not indented, given the text of
the statements below it. -/
def statementStep (store : Store) (id : NodeId) (found : Node)
    (below : NodeId → Nat → String) (depth : Nat) : String :=
  match found.kind with
  | .exprStmt expr => store.exprText expr ++ ";"
  | .varDecl text _ init =>
      let type := match store.typeOf id with
        | some type => type.simpleName
        | none => "var"
      let value := match init with
        | some init => " = " ++ store.exprText init
        | none => ""
      type ++ " " ++ text ++ value ++ ";"
  | .block [] => "\x7b\x7d"
  | .block stmts =>
      "\x7b\n"
        ++ String.join (stmts.map (fun stmt =>
          indent (depth + 1) ++ below stmt (depth + 1) ++ "\n"))
        ++ indent depth ++ "\x7d"
  | .ifStmt cond thenBranch elseBranch =>
      let alternative := match elseBranch with
        | some branch => store.elseText below thenBranch branch depth
        | none => ""
      "if (" ++ store.exprText cond ++ ")" ++ store.branchText below thenBranch depth
        ++ alternative
  | .whileStmt cond body =>
      "while (" ++ store.exprText cond ++ ")" ++ store.branchText below body depth
  | .switchStmt subject body =>
      "switch (" ++ store.exprText subject ++ ") \x7b\n"
        ++ String.join (body.map (store.switchLine below depth))
        ++ indent depth ++ "\x7d"
  | .caseLabel (some label) => "case " ++ store.exprText label ++ ":"
  | .caseLabel none => "default:"
  | .breakStmt (some label) => "break " ++ label ++ ";"
  | .breakStmt none => "break;"
  | .continueStmt (some label) => "continue " ++ label ++ ";"
  | .continueStmt none => "continue;"
  | .returnStmt (some value) => "return " ++ store.exprText value ++ ";"
  | .returnStmt none => "return;"
  | .throwStmt expr => "throw " ++ store.exprText expr ++ ";"
  | .unit members =>
      String.intercalate "\n" (members.map (fun member => indent depth ++ below member depth))
  | _ => store.exprText id

def statementText (store : Store) (id : NodeId) (depth : Nat) : String :=
  store.fold (fun _ => "") store.statementStep id depth

/-- Text of a node, without a newline at its end. -/
def text (store : Store) (id : NodeId) : String :=
  if (store.kind id).isExpression then store.exprText id else store.statementText id 0

end Store

end CodeTidy
