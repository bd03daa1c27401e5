import CodeTidy.Proofs.Construct

/-!
# Evaluating expressions

An evaluation says what the expressions of the language do, without saying how: an expression
is an action that may change the state, have effects, throw, or never end.  Only parentheses
and the short circuit of `||` are fixed here; developments that need more of the language add
its laws.
-/

namespace CodeTidy

/-! ## Actions -/

/-- A state together with what has been seen from outside on the way to it. -/
structure Traced (State Effect : Type) where
  state : State
  /-- The effects so far, in order. -/
  effects : List Effect

/-- A computation that gives a value or throws, if it ends, and leaves a world behind. -/
abbrev Action (World Thrown : Type) := ExceptT Thrown (StateT World Option)

namespace Action

variable {World Thrown α : Type}

def outcome (action : Action World Thrown α) (world : World) : Option (Except Thrown α × World) :=
  action.run world

def Reads (action : Action World Thrown α) (world : World) (value : α) : Prop :=
  action.outcome world = some (.ok value, world)

def negated (test : Action World Thrown Bool) : Action World Thrown Bool := do
  return !(← test)

def untilStop (stop : Bool) : List (Action World Thrown Bool) → Action World Thrown Bool
  | [] => return !stop
  | test :: rest => do
      if (← test) = stop then
        return stop
      else
        untilStop stop rest

/-- All tests from the left; the result is `stop` if one of them gives it. -/
def inFull (stop : Bool) : List (Action World Thrown Bool) → Action World Thrown Bool
  | [] => return !stop
  | test :: rest => do
      let here ← test
      let later ← inFull stop rest
      return if here = stop then stop else later

theorem outcome_bind {β : Type} (action : Action World Thrown α)
    (next : α → Action World Thrown β) (world : World) :
    (action >>= next).outcome world =
      match action.outcome world with
      | none => none
      | some (.error cause, later) => some (.error cause, later)
      | some (.ok value, later) => (next value).outcome later := by
  have hrun : (action >>= next).outcome world =
      (action.outcome world).bind (fun pair => ExceptT.bindCont next pair.1 pair.2) := rfl
  rw [hrun]
  rcases action.outcome world with _ | ⟨_ | _, later⟩ <;> rfl

theorem outcome_bind_ok {β : Type} {action : Action World Thrown α}
    {next : α → Action World Thrown β} {world later : World} {value : α}
    (h : action.outcome world = some (.ok value, later)) :
    (action >>= next).outcome world = (next value).outcome later := by
  rw [outcome_bind, h]

theorem outcome_bind_error {β : Type} {action : Action World Thrown α}
    {next : α → Action World Thrown β} {world later : World} {cause : Thrown}
    (h : action.outcome world = some (.error cause, later)) :
    (action >>= next).outcome world = some (.error cause, later) := by
  rw [outcome_bind, h]

theorem Reads.outcome_bind {β : Type} {action : Action World Thrown α}
    {next : α → Action World Thrown β} {world : World} {value : α} (h : action.Reads world value) :
    (action >>= next).outcome world = (next value).outcome world :=
  outcome_bind_ok h

theorem reads_untilStop_map {ι : Type} {test : ι → Action World Thrown Bool} {world : World}
    {flag : ι → Bool} {items : List ι}
    (h : ∀ item, item ∈ items → (test item).Reads world (flag item)) :
    (untilStop true (items.map test)).Reads world (items.any flag) := by
  induction items with
  | nil => rfl
  | cons item items ih =>
      have hrest := ih (fun other hother => h other (List.mem_cons_of_mem _ hother))
      unfold Reads
      rw [List.map_cons, untilStop, (h item (List.mem_cons_self ..)).outcome_bind, List.any_cons]
      cases flag item with
      | true => rfl
      | false => exact hrest

theorem negated_negated (test : Action World Thrown Bool) : test.negated.negated = test := by
  simp [negated]

theorem untilStop_singleton (stop : Bool) (test : Action World Thrown Bool) :
    untilStop stop [test] = test := by
  have hsame : untilStop stop [test] = test >>= pure := by
    simp only [untilStop]
    congr 1
    funext value
    cases value <;> cases stop <;> rfl
  rw [hsame, bind_pure]

theorem inFull_singleton (stop : Bool) (test : Action World Thrown Bool) :
    inFull stop [test] = test := by
  have hsame : inFull stop [test] = test >>= pure := by
    simp only [inFull, pure_bind]
    congr 1
    funext value
    cases value <;> cases stop <;> rfl
  rw [hsame, bind_pure]

/-- Negated tests stop at the opposite value, and at the same test. -/
theorem untilStop_negated (stop : Bool) (tests : List (Action World Thrown Bool)) :
    untilStop (!stop) (tests.map negated) = (untilStop stop tests).negated := by
  induction tests with
  | nil => simp [untilStop, negated]
  | cons test rest ih =>
      simp only [List.map_cons, untilStop, ih, negated, bind_assoc, pure_bind]
      congr 1
      funext value
      cases value <;> cases stop <;> simp

theorem inFull_negated (stop : Bool) (tests : List (Action World Thrown Bool)) :
    inFull (!stop) (tests.map negated) = (inFull stop tests).negated := by
  induction tests with
  | nil => simp [inFull, negated]
  | cons test rest ih =>
      simp only [List.map_cons, inFull, ih, negated, bind_assoc, pure_bind]
      congr 1
      funext value
      congr 1
      funext later
      cases value <;> cases later <;> cases stop <;> rfl

end Action

/-! ## Expressions -/

structure Evaluation (World Val Thrown : Type) where
  value : Term → Action World Thrown Val
  /-- The value of an expression that stands where a boolean is wanted. -/
  test : Term → Action World Thrown Bool
  test_paren : ∀ type inner, test (.node .paren type [inner]) = test inner
  test_or : ∀ type operands,
    test (.node (.chain .conditionalOr) type operands) = .untilStop true (operands.map test)

namespace Evaluation

variable {World Val Thrown : Type} (evaluation : Evaluation World Val Thrown)

theorem test_bare (term : Term) : evaluation.test term.bare = evaluation.test term := by
  induction term with
  | node head type subs ih =>
      unfold Term.bare
      split
      · next type' inner heq =>
          cases heq
          rw [evaluation.test_paren]
          exact ih inner (List.mem_singleton_self inner)
      · rfl

theorem test_wrap (outer : Nat) (term : Term) :
    evaluation.test (term.wrap outer) = evaluation.test term := by
  unfold Term.wrap
  split
  · exact evaluation.test_paren ..
  · rfl

theorem test_fit (outer : Option Nat) (term : Term) :
    evaluation.test (term.fit outer) = evaluation.test term := by
  cases outer with
  | none => rfl
  | some outer => exact evaluation.test_wrap outer term

theorem map_test_wrap (outer : Nat) (terms : List Term) :
    (terms.map (Term.wrap outer)).map evaluation.test = terms.map evaluation.test := by
  rw [List.map_map]
  exact List.map_congr_left (fun term _ => evaluation.test_wrap outer term)

theorem test_join_or (terms : List Term) :
    evaluation.test (.join .conditionalOr terms) =
      .untilStop true (terms.map evaluation.test) := by
  unfold Term.join
  split
  · next term => rw [List.map_singleton, Action.untilStop_singleton]
  · rw [Term.chain, evaluation.test_or, map_test_wrap]

end Evaluation

end CodeTidy
