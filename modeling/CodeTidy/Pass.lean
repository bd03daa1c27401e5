import CodeTidy.Rule.Basic

/-!
# Passes to a fixpoint

A pass visits the nodes of a tree from the root down and offers each to the rules
in order.  The first rule that asks for edits gets them committed at once, and the
subtree is left alone until the next pass.  A rule that asks to skip without
editing is not offered the nodes below.  Children are listed before the visit
descends, and those that were erased or moved away in the meantime are passed
over.

Passes are repeated until one commits nothing, or until their number reaches a
limit.
-/

namespace CodeTidy

structure Applied where
  /-- Number of the pass, from one on. -/
  pass : Nat
  rule : String
  /-- The node that was offered. -/
  target : NodeId
deriving DecidableEq

/-- What a part of a pass has committed: the number of answers, and the answers in order. -/
structure Tally where
  changes : Nat
  log : List Applied
deriving DecidableEq

namespace Tally

def empty : Tally :=
  ⟨0, []⟩

def single (applied : Applied) : Tally :=
  ⟨1, [applied]⟩

instance : Append Tally where
  append first second := ⟨first.changes + second.changes, first.log ++ second.log⟩

end Tally

inductive Status where
  /-- The last pass committed nothing. -/
  | converged
  /-- Every pass up to the limit committed something. -/
  | capReached
  /-- The run was called off between passes. -/
  | cancelled
deriving DecidableEq

structure Report where
  status : Status
  /-- Number of passes made. -/
  passes : Nat
  /-- Number of committed answers. -/
  changes : Nat
  /-- Committed answers in the order of their commits. -/
  log : List Applied
deriving DecidableEq

/-- How much longer than the number of nodes at the start of a pass its paths may
become, unless a schedule says otherwise.  The rules of the catalog need none of it;
it is there for rules that deepen the tree below the node they are offered. -/
def pathSlack : Nat := 1048576

structure Schedule (Memory : Type) where
  /-- Rules in the order in which they are offered each node. -/
  rules : List (Rule Memory)
  options : Options := {}
  maxPasses : Nat := 10
  /-- Whether the run is called off before its first pass. -/
  cancelled : Bool := false
  /-- How much longer than the number of nodes at the start of a pass its paths may
  become. -/
  slack : Nat := pathSlack

namespace Schedule

variable {Memory : Type}

/-! ## One node -/

/-- Outcome of offering a node to rules. -/
inductive Offer (Memory : Type) where
  /-- The named rule asked for edits, which were committed. -/
  | committed (rule : String)
  /-- No rule asked for edits; these still want to see the nodes below. -/
  | declined (active : List (Rule Memory))

def Offer.keep (rule : Rule Memory) (signal : Signal) : Offer Memory → Offer Memory
  | .committed name => .committed name
  | .declined active =>
      match signal with
      | .advance => .declined (rule :: active)
      | .skip => .declined active

/-- Offers a node to rules in order until one asks for edits.  Moves requested by a
rule that asks for none are forgotten. -/
def offer (options : Options) (node : NodeId) :
    List (Rule Memory) → StateT Memory Build (Offer Memory)
  | [] => return .declined []
  | rule :: rest => do
      let response ← rule.respond options node
      if response.edits.isEmpty then
        Build.forgetMoves
        return (← offer options node rest).keep rule response.signal
      else
        Build.commit response.edits
        return .committed rule.name

/-! ## One pass -/

def visitOwned (visit : NodeId → StateT Memory Build Tally) (holder : NodeId) :
    List NodeId → StateT Memory Build Tally
  | [] => return .empty
  | child :: rest => do
      let found ← Build.lookup child
      let here ←
        if found.erased || found.parent != some holder then
          pure .empty
        else
          visit child
      return here ++ (← visitOwned visit holder rest)

/-- Visits a node and the nodes below it along paths of bounded length. -/
def visitSteps (options : Options) (pass : Nat) :
    Nat → List (Rule Memory) → NodeId → StateT Memory Build Tally
  | 0, _, _ => throw .endlessPath
  | steps + 1, rules, node => do
      match ← offer options node rules with
      | .committed rule => return .single ⟨pass, rule, node⟩
      | .declined [] => return .empty
      | .declined active =>
          let kind ← Build.kindOf node
          visitOwned (visitSteps options pass steps active) node kind.children

/-- One pass over the tree, with what it committed. -/
def runPass (schedule : Schedule Memory) (pass : Nat) (root : NodeId) :
    StateT Memory Build Tally := do
  let store : Store ← getThe Store
  visitSteps schedule.options pass (store.size + schedule.slack) schedule.rules root

/-! ## Repeated passes -/

/-- Makes at most `remaining` more passes after those in the report so far. -/
def runPasses (schedule : Schedule Memory) (root : NodeId) :
    Nat → Report → StateT Memory Build Report
  | 0, done => return { done with status := .capReached }
  | remaining + 1, done =>
      if schedule.cancelled then
        return { done with status := .cancelled }
      else do
        let pass := done.passes + 1
        let tally ← schedule.runPass pass root
        let next : Report :=
          { status := .converged
            passes := pass
            changes := done.changes + tally.changes
            log := done.log ++ tally.log }
        if tally.changes = 0 then
          return next
        else
          schedule.runPasses root remaining next

/-- Runs passes over the tree at `root` until one commits nothing. -/
def run (schedule : Schedule Memory) (root : NodeId) : StateT Memory Build Report :=
  schedule.runPasses root schedule.maxPasses ⟨.converged, 0, 0, []⟩

end Schedule

end CodeTidy
