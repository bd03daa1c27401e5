import CodeTidy.Rule.Basic

/-!
# A switch with two groups as a conditional

A switch whose labels form at most two groups is an `if` with an `else`:

    switch (k) { case 1: a(); break; default: b(); }
    if (k == 1) { a(); } else { b(); }

The subject must have no side effect, because it is copied into the test of every
label.  No group may run on into the next one, no break may be left that would end
something else once the switch is gone, and the second group may not use locals of
the first, which becomes a block of its own.
-/

namespace CodeTidy

namespace TwoWaySwitch

def ruleName : String := "IfRatherThanTwoSwitchCases"

/-! ## Groups of labels -/

/-- Labels that stand together and the statements after them. -/
structure CaseGroup where
  labels : List NodeId := []
  stmts : List NodeId := []
  hasDefault : Bool := false
deriving DecidableEq

def CaseGroup.addLabel (group : CaseGroup) : Option NodeId → CaseGroup
  | some label => { group with labels := label :: group.labels }
  | none => { group with hasDefault := true }

/-- A switch body split into groups; `stmts` are the statements before the first
label. -/
structure Split where
  stmts : List NodeId := []
  groups : List CaseGroup := []
deriving DecidableEq

def Split.addItem (store : Store) (item : NodeId) (rest : Split) : Split :=
  match store.kind item with
  | .caseLabel label =>
      match rest.stmts, rest.groups with
      | [], group :: others => ⟨[], group.addLabel label :: others⟩
      | stmts, groups => ⟨[], CaseGroup.addLabel ⟨[], stmts, false⟩ label :: groups⟩
  | _ => ⟨item :: rest.stmts, rest.groups⟩

def Split.ofBody (store : Store) (body : List NodeId) : Split :=
  body.foldr (Split.addItem store) {}

def CaseGroup.locals? (store : Store) (group : CaseGroup) : Option (List BindingId) :=
  (group.stmts.mapM store.declaredLocals).map List.flatten

def CaseGroup.uses (store : Store) (locals : List BindingId) (group : CaseGroup) : Bool :=
  group.stmts.any (fun stmt => store.mentions stmt locals)

/-- The groups of a body, if there are one or two of them, no statement stands before
the first label, and the second uses no local of the first. -/
def caseGroups? (store : Store) (body : List NodeId) : Option (List CaseGroup) :=
  match Split.ofBody store body with
  | ⟨[], [only]⟩ => (only.locals? store).map (fun _ => [only])
  | ⟨[], [first, second]⟩ =>
      match first.locals? store, second.locals? store with
      | some locals, some _ => if second.uses store locals then none else some [first, second]
      | _, _ => none
  | _ => none

/-! ## Leaving a group -/

/-- The group without its final plain break.  There is none if the group can run on
into a following group, or if a break remains that would end something else. -/
def CaseGroup.closed? (store : Store) (isLast : Bool) (group : CaseGroup) :
    Option CaseGroup :=
  if !isLast && !group.stmts.getLast?.any store.endsWithJump then
    none
  else
    let stmts :=
      if group.stmts.getLast?.any store.isPlainBreak then group.stmts.dropLast
      else group.stmts
    if stmts.any store.hasLooseBreak then none else some { group with stmts := stmts }

def closedGroups? (store : Store) : List CaseGroup → Option (List CaseGroup)
  | [] => some []
  | [last] => (last.closed? store true).map (fun group => [group])
  | group :: rest =>
      match group.closed? store false, closedGroups? store rest with
      | some group, some rest => some (group :: rest)
      | _, _ => none

/-- The groups with the first default group at the end. -/
def defaultLast (groups : List CaseGroup) : List CaseGroup :=
  match groups.find? CaseGroup.hasDefault with
  | some group => groups.eraseP CaseGroup.hasDefault ++ [group]
  | none => groups

/-! ## The conditional -/

open Build

inductive TestForm where
  /-- `label.equals(subject)` -/
  | equalsCall
  /-- `subject == Type.LABEL` -/
  | constant (typeText : String)
  /-- `subject == label` -/
  | comparison
deriving DecidableEq

/-- The form of the test for a label of the given type.  Strings and boxed values
compare by `equals`, and constants of an enumeration are qualified by their type. -/
def TestForm.ofType : Option TypeDesc → TestForm
  | none => comparison
  | some type =>
      if type.sort = .boxed || type.name = "java.lang.String" then equalsCall
      else if type.sort = .enumeration then constant type.name
      else comparison

def labelTest (subject label : NodeId) : Build NodeId := do
  let form := TestForm.ofType ((← get).typeOf label)
  let copy ← deepCopy subject
  let value ← take label
  match form with
  | .equalsCall => call (some value.node) "equals" [copy]
  | .constant typeText =>
      let qualifier ← typeName typeText
      let constant ← qualified qualifier value.node
      chain .equals [copy, constant]
  | .comparison =>
      let left ← parenthesize copy Strength.equality
      chain .equals [left, value.node]

def groupTest (subject : NodeId) (labels : List NodeId) : Build NodeId := do
  let tests ← labels.mapM (labelTest subject)
  join .conditionalOr tests

/-- The statement for a group, given the statement for the groups after it.  An empty
last group contributes nothing. -/
def groupStatement (subject : NodeId) (group : CaseGroup) (rest : Option NodeId) :
    Build (Option NodeId) := do
  let moved ← group.stmts.mapM take
  let stmts := moved.map Child.node
  match rest with
  | none =>
      if stmts.isEmpty then
        return none
      else if group.hasDefault then
        return some (← block stmts)
      else
        let cond ← groupTest subject group.labels
        let thenBranch ← block stmts
        return some (← ifStmt cond thenBranch none)
  | some elseBranch =>
      let cond ← groupTest subject group.labels
      let thenBranch ← block stmts
      return some (← ifStmt cond thenBranch (some elseBranch))

def conditional (subject : NodeId) (groups : List CaseGroup) : Build (Option NodeId) :=
  groups.foldrM (groupStatement subject) none

def plan? (store : Store) (subject : NodeId) (body : List NodeId) :
    Option (List CaseGroup) :=
  if store.isPassive subject then
    ((caseGroups? store body).bind (closedGroups? store)).map defaultLast
  else
    none

def respond (_ : Options) (node : NodeId) : Build Response := do
  match ← kindOf node with
  | .switchStmt subject body =>
      match plan? (← get) subject body with
      | none => return .decline
      | some groups =>
          match ← conditional subject groups with
          | some stmt => return .replaceBy node stmt
          | none => return .edit [← dropStatement node]
  | _ => return .decline

/-- Turns a switch with at most two groups of labels into a conditional. -/
def rule {Memory : Type} : Rule Memory :=
  .plain ruleName respond

end TwoWaySwitch

end CodeTidy
