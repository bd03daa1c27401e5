import CodeTidy.Proofs.Evaluation
import CodeTidy.Proofs.Step

/-!
# Executing statements

An execution says how statements end and what they leave behind.  Loops, declarations and calls
are arbitrary; only blocks, conditionals, jumps and switches are fixed.  Two readings of the tree
are true of every execution: a statement that ends with a jump never ends normally
(`Execution.avoids_normal`), and one without a loose break never breaks out
(`Execution.avoids_broke`).
-/

namespace CodeTidy

/-! ## Ways to end -/

/-- How a statement ends.  Breaks and continuations may name the statement they are meant for. -/
inductive Completion (Val Thrown : Type) where
  | normal
  | broke (label : Option String)
  | continued (label : Option String)
  | returned (value : Option Val)
  | thrown (cause : Thrown)

/-- What a statement does: how it ends, if it does, and the world that it leaves. -/
abbrev Conduct (World Val Thrown : Type) := World → Option (Completion Val Thrown × World)

namespace Conduct

variable {World Val Thrown : Type}

def ending (completion : Completion Val Thrown) : Conduct World Val Thrown :=
  fun world => some (completion, world)

def andThen (first second : Conduct World Val Thrown) : Conduct World Val Thrown :=
  fun world =>
    match first world with
    | some (.normal, later) => second later
    | ended => ended

def sequence : List (Conduct World Val Thrown) → Conduct World Val Thrown
  | [] => ending .normal
  | first :: rest => first.andThen (sequence rest)

def branch (test : Action World Thrown Bool) (thenBranch elseBranch : Conduct World Val Thrown) :
    Conduct World Val Thrown :=
  fun world =>
    match test.outcome world with
    | none => none
    | some (.error cause, later) => some (.thrown cause, later)
    | some (.ok true, later) => thenBranch later
    | some (.ok false, later) => elseBranch later

def caught (body : Conduct World Val Thrown) : Conduct World Val Thrown :=
  fun world =>
    match body world with
    | some (.broke none, later) => some (.normal, later)
    | ended => ended

def Avoids (completion : Completion Val Thrown) (conduct : Conduct World Val Thrown) : Prop :=
  ∀ world later, conduct world ≠ some (completion, later)

variable {completion : Completion Val Thrown} {conduct first second : Conduct World Val Thrown}
  {conducts : List (Conduct World Val Thrown)}

theorem andThen_eq_some {world : World} {result : Completion Val Thrown × World} :
    first.andThen second world = some result ↔
      (∃ later, first world = some (.normal, later) ∧ second later = some result) ∨
        (result.1 ≠ .normal ∧ first world = some result) := by
  unfold andThen
  cases hfirst : first world with
  | none => simp
  | some found =>
      obtain ⟨completion, later⟩ := found
      cases completion with
      | normal =>
          simp only [Option.some.injEq, Prod.mk.injEq, true_and, exists_eq_left']
          refine ⟨.inl, ?_⟩
          rintro (hsecond | ⟨hne, rfl⟩)
          · exact hsecond
          · exact absurd rfl hne
      | _ =>
          simp only [Option.some.injEq, Prod.mk.injEq, reduceCtorEq, false_and, exists_false,
            false_or]
          refine ⟨?_, And.right⟩
          rintro rfl
          exact ⟨by simp, rfl⟩

theorem andThen_assoc (first second third : Conduct World Val Thrown) :
    (first.andThen second).andThen third = first.andThen (second.andThen third) := by
  funext world
  unfold andThen
  cases first world with
  | none => rfl
  | some found =>
      obtain ⟨completion, later⟩ := found
      cases completion <;> rfl

theorem sequence_append (before after : List (Conduct World Val Thrown)) :
    sequence (before ++ after) = (sequence before).andThen (sequence after) := by
  induction before with
  | nil => rfl
  | cons first rest ih => rw [List.cons_append, sequence, ih, sequence, andThen_assoc]

/-- What stands after a statement that never ends normally is not reached. -/
theorem andThen_of_avoids (h : Avoids .normal first) : first.andThen second = first := by
  funext world
  unfold andThen
  split
  · next later hrun => exact absurd hrun (h world later)
  · rfl

theorem caught_of_avoids (h : Avoids (.broke none) conduct) : caught conduct = conduct := by
  funext world
  unfold caught
  split
  · next later hrun => exact absurd hrun (h world later)
  · rfl

theorem avoids_caught (conduct : Conduct World Val Thrown) :
    Avoids (.broke none) (caught conduct) := by
  intro world later hrun
  unfold caught at hrun
  split at hrun
  · cases hrun
  · next hne => exact hne later hrun

/-- A plain break at the end makes no difference to what is caught. -/
theorem caught_andThen_broke (conduct : Conduct World Val Thrown) :
    caught (conduct.andThen (ending (.broke none))) = caught conduct := by
  funext world
  unfold caught andThen
  cases conduct world with
  | none => rfl
  | some found =>
      obtain ⟨completion, later⟩ := found
      cases completion <;> rfl

theorem avoids_ending {other : Completion Val Thrown} (h : other ≠ completion) :
    Avoids completion (ending other : Conduct World Val Thrown) := by
  intro world later hrun
  cases hrun
  exact h rfl

theorem avoids_broke_sequence {label : Option String}
    (h : ∀ conduct, conduct ∈ conducts → Avoids (.broke label) conduct) :
    Avoids (.broke label) (sequence conducts) := by
  induction conducts with
  | nil => exact avoids_ending (by simp)
  | cons first rest ih =>
      intro world later hrun
      rcases andThen_eq_some.mp hrun with ⟨middle, -, hrest⟩ | ⟨-, hfirst⟩
      · exact ih (fun conduct hmem => h conduct (List.mem_cons_of_mem _ hmem)) middle later hrest
      · exact h first (List.mem_cons_self ..) world later hfirst

/-- Statements in a row end normally only if the last one does. -/
theorem avoids_normal_sequence {last : Conduct World Val Thrown}
    (hlast : conducts.getLast? = some last) (h : Avoids .normal last) :
    Avoids .normal (sequence conducts) := by
  induction conducts with
  | nil => cases hlast
  | cons first rest ih =>
      intro world later hrun
      rcases andThen_eq_some.mp hrun with ⟨middle, hfirst, hrest⟩ | ⟨hne, -⟩
      · cases rest with
        | nil =>
            obtain rfl : first = last := by simpa using hlast
            exact h world middle hfirst
        | cons second rest =>
            rw [List.getLast?_cons_cons] at hlast
            exact ih hlast middle later hrest
      · exact hne rfl

theorem avoids_branch {test : Action World Thrown Bool}
    {thenBranch elseBranch : Conduct World Val Thrown}
    (hthrown : ∀ cause, completion ≠ .thrown cause) (hthen : Avoids completion thenBranch)
    (helse : Avoids completion elseBranch) :
    Avoids completion (branch test thenBranch elseBranch) := by
  intro world later hrun
  unfold branch at hrun
  split at hrun
  · cases hrun
  · next cause _ _ =>
      cases hrun
      exact hthrown cause rfl
  · exact hthen _ later hrun
  · exact helse _ later hrun

theorem branch_of_outcome {test : Action World Thrown Bool}
    {thenBranch elseBranch : Conduct World Val Thrown} {world later : World} {flag : Bool}
    (h : test.outcome world = some (.ok flag, later)) :
    branch test thenBranch elseBranch world = (if flag then thenBranch else elseBranch) later := by
  unfold branch
  rw [h]
  cases flag <;> rfl

theorem branch_of_error {test : Action World Thrown Bool}
    {thenBranch elseBranch : Conduct World Val Thrown} {world later : World} {cause : Thrown}
    (h : test.outcome world = some (.error cause, later)) :
    branch test thenBranch elseBranch world = some (.thrown cause, later) := by
  unfold branch
  rw [h]

theorem branch_of_reads {test : Action World Thrown Bool}
    {thenBranch elseBranch : Conduct World Val Thrown} {world : World} {flag : Bool}
    (h : test.Reads world flag) :
    branch test thenBranch elseBranch world =
      (if flag then thenBranch else elseBranch) world :=
  branch_of_outcome h

end Conduct

/-! ## Statements -/

/-- Whether a head stands for a statement that decides what is executed next. -/
def Head.isControl : Head → Bool
  | block | unit | ifStmt | whileStmt | switchStmt | breakStmt _ | continueStmt _ | returnStmt
  | throwStmt => true
  | _ => false

namespace Term

def labels (body : List Term) : List Term :=
  (body.filter (fun item => item.head == .caseLabel)).flatMap subs

theorem labels_append (before after : List Term) :
    labels (before ++ after) = labels before ++ labels after := by
  unfold labels
  rw [List.filter_append, List.flatMap_append]

def isCase {Val : Type} [DecidableEq Val] (constant : Term → Val) (key : Val) (item : Term) :
    Bool :=
  item.head == .caseLabel && item.subs.any (fun label => decide (constant label = key))

/-- The part of a switch body from where it is entered: from the label with the value of the
subject, else from the default label. -/
def entered {Val : Type} [DecidableEq Val] (constant : Term → Val) (key : Val)
    (body : List Term) : List Term :=
  if body.any (isCase constant key) then
    body.dropWhile (fun item => !item.isCase constant key)
  else
    body.dropWhile (fun item => !item.isDefault)

def executed (body : List Term) : List Term :=
  body.filter (fun item => item.head != .caseLabel)

end Term

structure Execution (World Val Thrown : Type) [DecidableEq Val] extends
    Evaluation World Val Thrown where
  exec : Term → Conduct World Val Thrown
  exec_block : ∀ type stmts, exec (.node .block type stmts) = .sequence (stmts.map exec)
  exec_unit : ∀ type stmts, exec (.node .unit type stmts) = .sequence (stmts.map exec)
  exec_if : ∀ type cond thenBranch, exec (.node .ifStmt type [cond, thenBranch]) =
    .branch (test cond) (exec thenBranch) (.ending .normal)
  exec_ifElse : ∀ type cond thenBranch elseBranch,
    exec (.node .ifStmt type [cond, thenBranch, elseBranch]) =
      .branch (test cond) (exec thenBranch) (exec elseBranch)
  exec_break : ∀ label type subs,
    exec (.node (.breakStmt label) type subs) = .ending (.broke label)
  exec_continue : ∀ label type subs,
    exec (.node (.continueStmt label) type subs) = .ending (.continued label)
  /-- A return ends with a value or without one, unless its expression throws. -/
  exec_return : ∀ type subs world completion later,
    exec (.node .returnStmt type subs) world = some (completion, later) →
      (∃ value, completion = .returned value) ∨ ∃ cause, completion = .thrown cause
  exec_throw : ∀ type subs world completion later,
    exec (.node .throwStmt type subs) world = some (completion, later) →
      ∃ cause, completion = .thrown cause
  /-- Loops catch the plain breaks in them. -/
  exec_while : ∀ type subs, (exec (.node .whileStmt type subs)).Avoids (.broke none)
  /-- Switches catch the plain breaks in them. -/
  exec_switch : ∀ type subs, (exec (.node .switchStmt type subs)).Avoids (.broke none)
  /-- If the subject and the labels have values and no effects, the switch is entered at the
  label with the value of the subject, else at the default label, and runs on from there past
  other labels up to a plain break. -/
  exec_entered : ∀ type subject body world key (constant : Term → Val),
    (value subject).Reads world key →
    (∀ label, label ∈ Term.labels body → (value label).Reads world (constant label)) →
    exec (.node .switchStmt type (subject :: body)) world =
      Conduct.caught (.sequence ((Term.executed (Term.entered constant key body)).map exec)) world
  /-- All else ends normally, or throws. -/
  exec_other : ∀ head type subs world completion later, head.isControl = false →
    exec (.node head type subs) world = some (completion, later) →
      completion = .normal ∨ ∃ cause, completion = .thrown cause

/-! ## What the tree says about jumps -/

/-- A conditional has a condition and one or two branches. -/
def Term.hasBranches (term : Term) : Bool :=
  term.head != .ifStmt || term.subs.length == 2 || term.subs.length == 3

theorem Tree.Legible.hasBranches {store : Store} {tree : Tree} (h : tree.Legible store) :
    tree.term.hasBranches = true := by
  have hhead := h.kind_head
  have hchildren : (store.kind tree.id).children = tree.subs.map Tree.id := h.children
  have hlength := congrArg List.length hchildren
  unfold Term.hasBranches
  rw [Tree.head_term, ← hhead, Tree.subs_term, List.length_map]
  rw [List.length_map] at hlength
  cases hkind : store.kind tree.id <;> rw [hkind] at hlength <;> try rfl
  next cond thenBranch elseBranch =>
    rw [← hlength]
    cases elseBranch <;> rfl

theorem Tree.Legible.all_hasBranches {store : Store} {tree : Tree} (h : tree.Legible store) :
    tree.term.all Term.hasBranches = true :=
  Tree.all_iff.mpr (fun _ hbelow => (h.of_mem hbelow).hasBranches)

theorem Term.exists_branches {type : Option TypeDesc} {subs : List Term}
    (h : (node .ifStmt type subs).hasBranches = true) :
    (∃ cond thenBranch, subs = [cond, thenBranch]) ∨
      ∃ cond thenBranch elseBranch, subs = [cond, thenBranch, elseBranch] := by
  rcases subs with _ | ⟨cond, _ | ⟨thenBranch, _ | ⟨elseBranch, _ | _⟩⟩⟩
  · cases h
  · cases h
  · exact .inl ⟨cond, thenBranch, rfl⟩
  · exact .inr ⟨cond, thenBranch, elseBranch, rfl⟩
  · simp [hasBranches] at h

namespace Execution

open Conduct

variable {World Val Thrown : Type} [DecidableEq Val] (execution : Execution World Val Thrown)
  {term : Term} {type : Option TypeDesc} {subs : List Term} {completion : Completion Val Thrown}

theorem avoids_throw (hthrown : ∀ cause, completion ≠ .thrown cause) :
    (execution.exec (.node .throwStmt type subs)).Avoids completion := by
  intro world later hrun
  obtain ⟨cause, hend⟩ := execution.exec_throw _ _ _ _ _ hrun
  exact hthrown cause hend

theorem avoids_return (hreturned : ∀ value, completion ≠ .returned value)
    (hthrown : ∀ cause, completion ≠ .thrown cause) :
    (execution.exec (.node .returnStmt type subs)).Avoids completion := by
  intro world later hrun
  rcases execution.exec_return _ _ _ _ _ hrun with ⟨value, hend⟩ | ⟨cause, hend⟩
  · exact hreturned value hend
  · exact hthrown cause hend

/-- Control never leaves a statement that ends with a jump at its end. -/
theorem avoids_normal (h : term.endsWithJump = true) : (execution.exec term).Avoids .normal := by
  refine Term.endsWithJump_induct ?jump ?block ?ifElse h
  case jump =>
    intro head type subs hjump
    cases head with
    | breakStmt label =>
        rw [execution.exec_break]
        exact avoids_ending (by simp)
    | continueStmt label =>
        rw [execution.exec_continue]
        exact avoids_ending (by simp)
    | returnStmt => exact execution.avoids_return (by simp) (by simp)
    | throwStmt => exact execution.avoids_throw (by simp)
    | _ => cases hjump
  case block =>
    intro type stmts last hlast ih
    rw [execution.exec_block]
    refine avoids_normal_sequence ?_ ih
    rw [List.getLast?_map, hlast, Option.map_some]
  case ifElse =>
    intro type cond thenBranch elseBranch ihThen ihElse
    rw [execution.exec_ifElse]
    exact avoids_branch (by simp) ihThen ihElse

theorem avoids_broke (hall : term.all Term.hasBranches = true)
    (h : term.hasLooseBreak = false) : (execution.exec term).Avoids (.broke none) := by
  revert hall
  refine Term.hasLooseBreak_induct ?node h
  case node =>
    intro head type subs hhead ih hall
    have hsub : head.catchesBreak = false → ∀ sub, sub ∈ subs →
        (execution.exec sub).Avoids (.broke none) :=
      fun hcatches sub hin => ih hcatches sub hin (Term.all_sub hall hin)
    have hrow : head.catchesBreak = false →
        (sequence (subs.map execution.exec)).Avoids (.broke none) := by
      intro hcatches
      refine avoids_broke_sequence fun conduct hmem => ?_
      obtain ⟨sub, hin, rfl⟩ := List.mem_map.mp hmem
      exact hsub hcatches sub hin
    cases head with
    | block =>
        rw [execution.exec_block]
        exact hrow rfl
    | unit =>
        rw [execution.exec_unit]
        exact hrow rfl
    | ifStmt =>
        rcases Term.exists_branches (Term.holds_of_all hall) with
          ⟨cond, thenBranch, rfl⟩ | ⟨cond, thenBranch, elseBranch, rfl⟩
        · rw [execution.exec_if]
          exact avoids_branch (by simp) (hsub rfl _ (by simp)) (avoids_ending (by simp))
        · rw [execution.exec_ifElse]
          exact avoids_branch (by simp) (hsub rfl _ (by simp)) (hsub rfl _ (by simp))
    | whileStmt => exact execution.exec_while type subs
    | switchStmt => exact execution.exec_switch type subs
    | breakStmt label =>
        rw [execution.exec_break]
        refine avoids_ending ?_
        rintro ⟨⟩
        exact hhead rfl
    | continueStmt label =>
        rw [execution.exec_continue]
        exact avoids_ending (by simp)
    | returnStmt => exact execution.avoids_return (by simp) (by simp)
    | throwStmt => exact execution.avoids_throw (by simp)
    | _ =>
        intro world later hrun
        rcases execution.exec_other _ _ _ _ _ _ rfl hrun with hend | ⟨_, hend⟩ <;> cases hend

end Execution

end CodeTidy
